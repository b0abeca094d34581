import PlainSync.Proofs.Log.RoundTrip
import PlainSync.Proofs.Text.Split

/-!
# Texts of logs

A log is the lines of its entries, each with a line end behind it. Such a text is cut into these
lines again, so that checking it counts the entries and finds the faults of each.
-/

namespace PlainSync

open Json (maxDepth)

/-- The characters of a log with these entries. -/
def logChars (entries : List LogEntry) : List Char :=
  entries.flatMap fun entry => entry.toLine.toList ++ ['\n']

/-- The log with these entries in its encoding. -/
def logBytes (entries : List LogEntry) : Bytes :=
  entries.flatMap fun entry => Bytes.ofString entry.toLine ++ [Byte.newline]

/-- One more entry is one more line. -/
theorem logBytes_append (entries : List LogEntry) (entry : LogEntry) :
    logBytes (entries ++ [entry]) =
      logBytes entries ++ Bytes.ofString entry.toLine ++ [Byte.newline] := by
  unfold logBytes
  rw [List.flatMap_append, List.flatMap_singleton, List.append_assoc]

/-- A log with entries is not empty. -/
theorem logBytes_ne_nil {entries : List LogEntry} (hentries : entries ≠ []) :
    logBytes entries ≠ [] := by
  obtain ⟨init, last, rfl⟩ := (List.eq_nil_or_concat entries).resolve_left hentries
  rw [List.concat_eq_append, logBytes_append]
  exact List.append_ne_nil_of_right_ne_nil _ (List.cons_ne_nil _ _)

/-! ## Encoding -/

/-- A character has at most four bytes. -/
theorem Bytes.length_ofString_le (s : String) : (ofString s).length ≤ 4 * s.toList.length := by
  rw [ofString]
  induction s.toList with
  | nil => exact Nat.le_refl 0
  | cons c more ih =>
    have hsize := c.utf8Size_le_four
    rw [List.flatMap_cons, List.length_append, String.length_utf8EncodeChar, List.length_cons]
    omega

/-- The encoding of a string is decoded to the string. -/
theorem Bytes.toString?_ofString (s : String) : Bytes.toString? (Bytes.ofString s) = some s := by
  have hencoded : (⟨(Bytes.ofString s).toArray⟩ : ByteArray) = s.toByteArray := by
    rw [← String.utf8Encode_toList]
    apply ByteArray.ext
    exact List.data_toByteArray.symm
  unfold Bytes.toString? String.fromUTF8?
  rw [hencoded, dif_pos s.isValidUTF8]
  rfl

/-- The bytes of a log are those of its characters. -/
theorem logBytes_eq_ofString (entries : List LogEntry) :
    logBytes entries = Bytes.ofString (String.ofList (logChars entries)) := by
  have hentry (entry : LogEntry) : Bytes.ofString entry.toLine ++ [Byte.newline] =
      (entry.toLine.toList ++ ['\n']).flatMap String.utf8EncodeChar := by
    rw [List.flatMap_append]
    rfl
  unfold logBytes logChars Bytes.ofString
  rw [String.toList_ofList, List.flatMap_assoc]
  simp only [← hentry]
  rfl

/-! ## Lines -/

/-- A text that neither begins nor ends with a blank is not trimmed. -/
theorem trimBlanks_eq_self {first last : Char} (middle : List Char)
    (hfirst : isBlankChar first = false) (hlast : isBlankChar last = false) :
    trimBlanks (first :: middle ++ [last]) = first :: middle ++ [last] := by
  unfold trimBlanks
  rw [List.cons_append, List.dropWhile_cons_of_neg (by simp [hfirst]), ← List.cons_append,
    List.reverse_append, List.reverse_singleton, List.singleton_append,
    List.dropWhile_cons_of_neg (by simp [hlast]), ← List.singleton_append, List.reverse_append,
    List.reverse_singleton, List.reverse_reverse]

/-- An entry whose line is read again. -/
structure LogEntry.IsReadable (entry : LogEntry) : Prop where
  isWritable : entry.IsWritable
  depth_le : entry.json.depth ≤ maxDepth

variable {entry : LogEntry} {entries : List LogEntry}

/-- The characters of a line are those of its members in braces. -/
theorem LogEntry.toList_toLine (entry : LogEntry) :
    entry.toLine.toList = '\x7b' :: Json.memberChars entry.members ++ ['\x7d'] := by
  rw [toLine, Json.compact, String.toList_ofList, json, Json.chars]

/-- A line has no blanks at its ends. -/
theorem LogEntry.trimBlanks_toLine (entry : LogEntry) :
    trimBlanks entry.toLine.toList = entry.toLine.toList := by
  rw [entry.toList_toLine]
  exact trimBlanks_eq_self _ (by decide) (by decide)

/-- A line shows the faults that its entry has. -/
theorem lineFaults_toLine (hentry : entry.IsReadable) : lineFaults entry.toLine = entry.faults := by
  unfold lineFaults
  rw [LogEntry.validateLine_toLine hentry.isWritable, if_pos hentry.depth_le]
  by_cases hfaults : entry.faults = []
  · rw [if_pos hfaults, hfaults]
  · rw [if_neg hfaults]

/-- What checking entries finds, the first of them standing on the line of that number. -/
def findings (number : Nat) : List LogEntry → List LogFinding
  | [] => []
  | entry :: more => entry.faults.map (LogFinding.mk number) ++ findings (number + 1) more

/-- The lines of a log are counted and checked one after the other. -/
theorem validateLines_logChars (hentries : ∀ entry ∈ entries, entry.IsReadable) (number : Nat) :
    validateLines number (splitOn '\n' (logChars entries)) =
      (entries.length, findings number entries) := by
  induction entries generalizing number with
  | nil => rfl
  | cons entry more ih =>
    obtain ⟨hentry, hmore⟩ := List.forall_mem_cons.mp hentries
    have hbreak : '\n' ∉ entry.toLine.toList := by
      intro hbreak
      exact absurd (LogEntry.noControls_toLine hentry.isWritable '\n' hbreak) (by decide)
    have hchars : logChars (entry :: more) = entry.toLine.toList ++ '\n' :: logChars more := by
      rw [logChars, List.flatMap_cons, List.append_assoc, List.singleton_append]
      rfl
    have hnonempty : entry.toLine.toList.isEmpty = false := by
      rw [LogEntry.toList_toLine]
      rfl
    rw [hchars, splitOn_append hbreak, validateLines, ih hmore]
    simp only [LogEntry.trimBlanks_toLine, hnonempty, Bool.false_eq_true, if_false,
      String.ofList_toList, lineFaults_toLine hentry, List.length_cons, findings]

/-- Checking a log counts its entries and finds the faults of each. -/
theorem validateText_logChars (hentries : ∀ entry ∈ entries, entry.IsReadable) :
    validateText (String.ofList (logChars entries)) = (entries.length, findings 1 entries) := by
  rw [validateText, String.toList_ofList, validateLines_logChars hentries]

end PlainSync
