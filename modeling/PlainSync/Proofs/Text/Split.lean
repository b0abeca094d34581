import PlainSync.Text.Split

/-!
# Parts of a text

No part of a text holds the separator that the text is cut at, and a text with a separator in it
has the parts of what stands in front of that and of what stands behind it.
-/

namespace PlainSync

variable {α : Type} [DecidableEq α] {separator : α}

/-- Every text has a part. -/
theorem splitOn_ne_nil (separator : α) (text : List α) : splitOn separator text ≠ [] := by
  cases text with
  | nil => exact nofun
  | cons c rest =>
    rw [splitOn]
    split
    · exact nofun
    · split
      · exact nofun
      · exact nofun

/-- What is no separator belongs to the first part. -/
theorem splitOn_cons_of_ne {c : α} (hc : c ≠ separator) {text part : List α}
    {more : List (List α)} (htext : splitOn separator text = part :: more) :
    splitOn separator (c :: text) = (c :: part) :: more := by
  rw [splitOn, if_neg hc, htext]

/-- A text without separators is its only part. -/
theorem splitOn_eq_singleton {text : List α} (htext : separator ∉ text) :
    splitOn separator text = [text] := by
  induction text with
  | nil => rfl
  | cons c rest ih =>
    obtain ⟨hc, hrest⟩ := not_or.mp (mt List.mem_cons.mpr htext)
    exact splitOn_cons_of_ne (Ne.symm hc) (ih hrest)

/-- The parts of two texts with a separator between them are those of the one and of the
other. -/
theorem splitOn_append_cons (separator : α) (first second : List α) :
    splitOn separator (first ++ separator :: second) =
      splitOn separator first ++ splitOn separator second := by
  induction first with
  | nil => exact if_pos rfl
  | cons c rest ih =>
    obtain ⟨part, more, hparts⟩ := List.exists_cons_of_ne_nil (splitOn_ne_nil separator rest)
    rw [hparts, List.cons_append] at ih
    rw [List.cons_append]
    by_cases hc : c = separator
    · rw [splitOn, if_pos hc, splitOn, if_pos hc, ih, hparts]
      rfl
    · rw [splitOn_cons_of_ne hc ih, splitOn_cons_of_ne hc hparts]
      rfl

/-- No part holds the separator. -/
theorem notMem_of_mem_splitOn {text part : List α}
    (hpart : part ∈ splitOn separator text) : separator ∉ part := by
  induction text generalizing part with
  | nil =>
    rw [List.mem_singleton.mp hpart]
    exact List.not_mem_nil
  | cons c rest ih =>
    obtain ⟨first, more, hparts⟩ := List.exists_cons_of_ne_nil (splitOn_ne_nil separator rest)
    by_cases hc : c = separator
    · rw [splitOn, if_pos hc] at hpart
      rcases List.mem_cons.mp hpart with rfl | hpart
      · exact List.not_mem_nil
      · exact ih hpart
    · rw [splitOn_cons_of_ne hc hparts] at hpart
      rcases List.mem_cons.mp hpart with rfl | hpart
      · have hfirst := ih (hparts ▸ List.mem_cons_self)
        exact fun hmem => (List.mem_cons.mp hmem).elim (Ne.symm hc) hfirst
      · exact ih (hparts ▸ List.mem_cons_of_mem first hpart)

/-- A text is cut behind its first part. -/
theorem splitOn_append {part : List α} (hpart : separator ∉ part) (rest : List α) :
    splitOn separator (part ++ separator :: rest) = part :: splitOn separator rest := by
  rw [splitOn_append_cons, splitOn_eq_singleton hpart, List.singleton_append]

end PlainSync
