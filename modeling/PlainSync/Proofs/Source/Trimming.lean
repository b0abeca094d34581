import Mathlib.Data.List.Find
import PlainSync.Proofs.Source.Blanking

/-!
# Trimming

Whole encodings of blank characters are trimmed from the ends of a text, up to the first byte that
no such encoding has.
-/

namespace PlainSync

open Bytes

/-- A text that a byte follows that it does not have does not reach that byte. -/
theorem prefix_append_cons_iff {pattern : Bytes} {b : UInt8} (hb : b ∉ pattern)
    (text rest : Bytes) : pattern <+: text ++ b :: rest ↔ pattern <+: text := by
  refine ⟨fun hlong => ?_, fun hshort => hshort.trans (List.prefix_append _ _)⟩
  rcases List.prefix_or_prefix_of_prefix hlong (List.prefix_append text (b :: rest)) with
    hshort | ⟨more, rfl⟩
  · exact hshort
  · cases more with
    | nil => simp
    | cons c more =>
      obtain ⟨rfl, -⟩ := List.cons_prefix_cons.mp ((List.prefix_append_right_inj text).mp hlong)
      exact absurd (by simp) hb

/-- A byte of no blank ends the blanks in front of it. -/
theorem dropLeading_append_cons {patterns : List Bytes} {b : UInt8}
    (hb : ∀ pattern ∈ patterns, b ∉ pattern) (front rest : Bytes) :
    dropLeading patterns (front ++ b :: rest) = dropLeading patterns front ++ b :: rest := by
  have hsame (text : Bytes) :
      (patterns.find? fun pattern => !pattern.isEmpty && pattern.isPrefixOf (text ++ b :: rest)) =
        patterns.find? fun pattern => !pattern.isEmpty && pattern.isPrefixOf text := by
    refine List.find?_congr fun pattern hpattern => ?_
    have hprefix := prefix_append_cons_iff (hb pattern hpattern) text rest
    rw [Bool.eq_iff_iff]
    simp only [Bool.and_eq_true, List.isPrefixOf_iff_prefix, hprefix]
  fun_induction dropLeading patterns front with
  | case1 text pattern hfound ih =>
    have hmatch := List.find?_some hfound
    rw [Bool.and_eq_true, List.isPrefixOf_iff_prefix] at hmatch
    rw [dropLeading]
    split
    · next pattern' hfound' =>
      rw [hsame, hfound] at hfound'
      obtain rfl := Option.some.inj hfound'
      rw [List.drop_append_of_le_length hmatch.2.length_le]
      exact ih
    · next hnone =>
      rw [hsame, hfound] at hnone
      cases hnone
  | case2 text hnone =>
    rw [dropLeading]
    split
    · next pattern hfound =>
      rw [hsame, hnone] at hfound
      cases hfound
    · rfl

/-- Trimming a text does not reach into a part between two bytes of no blank. -/
theorem trim_append {first last : UInt8} {text : Bytes}
    (hfirst : ∀ pattern ∈ blankEncodings, first ∉ pattern)
    (hlast : ∀ pattern ∈ blankEncodings, last ∉ pattern) (hhead : text.head? = some first)
    (hend : text.getLast? = some last) (front back : Bytes) :
    (front ++ text ++ back).trim = front.trimStart ++ text ++ back.trimEnd := by
  obtain ⟨more, rfl⟩ := List.head?_eq_some_iff.mp hhead
  obtain ⟨less, hless⟩ := List.getLast?_eq_some_iff.mp hend
  have hreversed : ∀ pattern ∈ blankEncodings.map List.reverse, last ∉ pattern := by
    intro pattern hpattern hmem
    obtain ⟨encoding, hencoding, rfl⟩ := List.mem_map.mp hpattern
    exact hlast encoding hencoding (List.mem_reverse.mp hmem)
  have hstart : (front ++ (first :: more) ++ back).trimStart =
      front.trimStart ++ (first :: more) ++ back := by
    rw [List.append_assoc, List.append_assoc]
    exact dropLeading_append_cons hfirst front (more ++ back)
  rw [trim, hstart, hless, trimEnd, trimEnd]
  simp only [List.reverse_append, List.reverse_cons, List.reverse_nil, List.nil_append,
    List.cons_append]
  rw [dropLeading_append_cons hreversed]
  simp

/-- What is dropped from the front is made of patterns. -/
theorem exists_flatten_dropLeading (patterns : List Bytes) (text : Bytes) :
    ∃ dropped : List Bytes, (∀ pattern ∈ dropped, pattern ∈ patterns) ∧
      dropped.flatten ++ dropLeading patterns text = text := by
  fun_induction dropLeading patterns text with
  | case1 text pattern hfound ih =>
    obtain ⟨dropped, hdropped, hwhole⟩ := ih
    have hmatch := List.find?_some hfound
    rw [Bool.and_eq_true, List.isPrefixOf_iff_prefix] at hmatch
    obtain ⟨behind, rfl⟩ := hmatch.2
    rw [List.drop_left] at hwhole ⊢
    refine ⟨pattern :: dropped,
      List.forall_mem_cons.mpr ⟨List.mem_of_find?_eq_some hfound, hdropped⟩, ?_⟩
    rw [List.flatten_cons, List.append_assoc, hwhole]
  | case2 text hnone => exact ⟨[], fun _ hmem => absurd hmem List.not_mem_nil, rfl⟩

/-- What is trimmed from both ends is made of encodings of blank characters. -/
theorem exists_flatten_trim (text : Bytes) :
    ∃ front back : List Bytes, (∀ encoding ∈ front, encoding ∈ blankEncodings) ∧
      (∀ encoding ∈ back, encoding ∈ blankEncodings) ∧
      front.flatten ++ (text.trim ++ back.flatten) = text := by
  obtain ⟨front, hfront, hstart⟩ := exists_flatten_dropLeading blankEncodings text
  obtain ⟨back, hback, hend⟩ :=
    exists_flatten_dropLeading (blankEncodings.map List.reverse) text.trimStart.reverse
  refine ⟨front, (back.map List.reverse).reverse, hfront, fun encoding hmem => ?_, ?_⟩
  · obtain ⟨pattern, hpattern, rfl⟩ := List.mem_map.mp (List.mem_reverse.mp hmem)
    obtain ⟨encoding, hencoding, rfl⟩ := List.mem_map.mp (hback pattern hpattern)
    rwa [List.reverse_reverse]
  · have hwhole : text.trim ++ (back.map List.reverse).reverse.flatten = text.trimStart := by
      rw [← List.reverse_inj, ← hend, List.reverse_append, ← List.reverse_flatten, trim, trimEnd]
      simp only [List.reverse_reverse]
    rw [hwhole]
    exact hstart

end PlainSync
