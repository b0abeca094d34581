import PlainSync.Proofs.Source.Joined

/-!
# Starts of lines

Whether a line starts in front of a text only matters for a hash mark that is the first byte of the
text that is not blank.
-/

namespace PlainSync.Source

open Bytes

/-- A line starts alike in front of a text, or no hash mark is the first byte of the text that is
not blank. -/
def StartsAlike (before before' text : Bytes) : Prop :=
  atLineStart before' = atLineStart before ∨
    (text.dropWhile Byte.isBlank).head? ≠ some Byte.hash

namespace StartsAlike

variable {before before' rest : Bytes} {b : UInt8}

/-- In front of a hash mark both texts start a line or neither does. -/
theorem of_hash (halike : StartsAlike before before' (Byte.hash :: rest)) :
    atLineStart before' = atLineStart before :=
  halike.resolve_right fun hhead => hhead rfl

/-- Texts that start lines alike do so behind one more byte. -/
theorem cons (halike : StartsAlike before before' (b :: rest)) :
    StartsAlike (b :: before) (b :: before') rest := by
  rcases halike with hstart | hhead
  · exact .inl (atLineStart_append hstart [b])
  · by_cases hblank : Byte.isBlank b
    · rw [List.dropWhile_cons_of_pos hblank] at hhead
      exact .inr hhead
    · simp [StartsAlike, atLineStart_cons, hblank]

/-- Texts that start lines alike do so behind a unit. -/
theorem append {unit : Bytes} (halike : StartsAlike before before' (unit ++ rest)) :
    StartsAlike (unit.reverse ++ before) (unit.reverse ++ before') rest := by
  induction unit generalizing before before' with
  | nil => exact halike
  | cons b unit ih =>
    rw [List.reverse_cons, List.append_assoc, List.append_assoc]
    exact ih halike.cons

end StartsAlike

/-- Directives are found alike behind texts that start lines alike. -/
theorem findDirective?_of_startsAlike {before before' text : Bytes}
    (halike : StartsAlike before before' text) (span : Nat) :
    findDirective? before' text span = findDirective? before text span := by
  induction before, text, span using findDirective?.induct generalizing before' with
  | case1 before text => rw [findDirective?_zero, findDirective?_zero]
  | case2 before text span hspan unit behind htrivia ih =>
    rw [← append_of_splitTrivia? htrivia] at halike
    rw [findDirective?_trivia hspan htrivia, findDirective?_trivia hspan htrivia, ih halike.append]
  | case3 before span hspan htrivia =>
    rw [findDirective?, findDirective?]
    split <;> rfl
  | case4 before span hspan b rest htrivia hhash =>
    obtain ⟨span, rfl⟩ := Nat.exists_eq_succ_of_ne_zero hspan
    obtain ⟨rfl, hstart⟩ := hhash
    rw [findDirective?_cons htrivia, findDirective?_cons htrivia, halike.of_hash]
    simp only [hstart, and_self, if_true]
  | case5 before span hspan b rest htrivia hhash ih =>
    obtain ⟨span, rfl⟩ := Nat.exists_eq_succ_of_ne_zero hspan
    have hhash' : ¬ (b = Byte.hash ∧ atLineStart before') := by
      rintro ⟨rfl, hstart⟩
      exact hhash ⟨rfl, halike.of_hash ▸ hstart⟩
    rw [findDirective?_cons htrivia, findDirective?_cons htrivia, if_neg hhash, if_neg hhash']
    exact congrArg (Option.map _) (ih halike.cons)

/-- A lexeme is read alike behind texts that start lines alike. -/
theorem nextLexeme_of_startsAlike {before before' rest : Bytes} {b : UInt8}
    (halike : StartsAlike before before' (b :: rest)) :
    nextLexeme before' b rest = nextLexeme before b rest := by
  by_cases hhash : b = Byte.hash
  · subst hhash
    exact nextLexeme_of_atLineStart halike.of_hash _ _
  · exact nextLexeme_of_ne_hash hhash _ _ _

/-- The outline of a text is the same behind every text in front of which a line starts alike. -/
theorem outline_of_startsAlike (line : Nat) (before text : Bytes) :
    ∀ before', StartsAlike before before' text →
      outline line before' text = outline line before text := by
  induction line, before, text using outline_induction with
  | nil line before =>
    intro before' _
    rw [outline, outline]
  | @copied line before b rest lexeme behind hnext hopening ih =>
    intro before' halike
    have hnext' := (nextLexeme_of_startsAlike halike).trans hnext
    rw [← append_of_nextLexeme hnext] at halike
    rw [outline_copied hnext hopening, outline_copied hnext' hopening, ih _ halike.append]
  | @kept line before b rest lexeme behind builtin gap inner reason hnext hopening hjudge ih =>
    intro before' halike
    have hnext' := (nextLexeme_of_startsAlike halike).trans hnext
    rw [← append_of_nextLexeme hnext] at halike
    rw [outline_kept hnext hopening hjudge,
      outline_kept hnext' hopening ((judge_behind_openParen _ _ _ _ _).trans hjudge),
      ih _ halike.append]
  | @expanded line before b rest lexeme behind builtin gap inner list hnext hopening hjudge
      hargument ih =>
    intro before' halike
    have hnext' := (nextLexeme_of_startsAlike halike).trans hnext
    have htail : atLineStart ((callTail gap list).reverse ++ lexeme.text.reverse ++ before') =
        atLineStart ((callTail gap list).reverse ++ lexeme.text.reverse ++ before) := by
      rw [List.append_assoc, List.append_assoc, atLineStart_callTail, atLineStart_callTail]
    rw [outline_expanded hnext hopening hjudge,
      outline_expanded hnext' hopening ((judge_behind_openParen _ _ _ _ _).trans hjudge),
      ih _ (.inl htail)]

end PlainSync.Source
