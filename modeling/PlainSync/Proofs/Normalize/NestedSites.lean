import Mathlib.Tactic.Conv
import PlainSync.Proofs.Normalize.CallSites
import PlainSync.Proofs.Normalize.Replacements

/-!
# Calls in arguments of calls

A call that is decided about stands between the replaced calls of a text, or in an argument of one
of them. The calls of an argument are those of a text of its own, only further to the right.
-/

namespace PlainSync.Source

open Bytes

/-! ## Calls among others -/

mutual

/-- Behind more text, the calls stand further to the right. -/
theorem Piece.sites_shift (piece : Piece) (count number offset : Nat) :
    piece.sites number (count + offset) =
      (piece.sites number offset).map (CallSite.shift count) := by
  cases piece with
  | verbatim text => rfl
  | kept builtin line reason => rfl
  | call builtin gap list operands =>
    have hoperands := sitesOfOperands_shift operands count number
      (offset + builtin.spelling.length + gap.length + 1)
    simp only [← Nat.add_assoc] at hoperands
    simp only [Piece.sites, hoperands, List.map_cons]
    rfl

/-- The calls of an outline stand as far behind as its text. -/
theorem sitesOf_shift (pieces : List Piece) (count number offset : Nat) :
    sitesOf number (count + offset) pieces =
      (sitesOf number offset pieces).map (CallSite.shift count) := by
  cases pieces with
  | nil => rfl
  | cons piece more =>
    have hmore := sitesOf_shift more count (piece.render number).2
      (offset + piece.source.length)
    rw [← Nat.add_assoc] at hmore
    rw [sitesOf, sitesOf, List.map_append, piece.sites_shift, hmore]

/-- The calls of operands stand as far behind as these. -/
theorem sitesOfOperands_shift (operands : List (List Piece)) (count number offset : Nat) :
    sitesOfOperands number (count + offset) operands =
      (sitesOfOperands number offset operands).map (CallSite.shift count) := by
  cases operands with
  | nil => rfl
  | cons operand more =>
    have hmore := sitesOfOperands_shift more count (renderPieces number operand).2
      (offset + (operand.flatMap Piece.source).length + 1)
    simp only [← Nat.add_assoc] at hmore
    rw [sitesOfOperands, sitesOfOperands, List.map_append, sitesOf_shift, hmore, List.map_map,
      List.map_map]
    rfl

end

/-- No call stands in front of its text. -/
theorem le_position_of_mem_sitesOf {pieces : List Piece} {number offset : Nat} {site : CallSite}
    (hsite : site ∈ sitesOf number offset pieces) : offset ≤ site.position := by
  have hshift := sitesOf_shift pieces offset number 0
  rw [Nat.add_zero] at hshift
  rw [hshift] at hsite
  obtain ⟨other, -, rfl⟩ := List.mem_map.mp hsite
  exact Nat.le_add_right _ _

/-- The calls of an outline stand in its text. -/
theorem le_position_of_mem_replacementsOf {pieces : List Piece} {number offset : Nat}
    {replacement : Replacement} (hmem : replacement ∈ replacementsOf number offset pieces) :
    offset ≤ replacement.position := by
  induction pieces generalizing number offset with
  | nil => cases hmem
  | cons piece more ih =>
    rcases List.mem_append.mp hmem with hhead | hmore
    · cases piece with
      | verbatim text | kept builtin line reason => cases hhead
      | call builtin gap list operands =>
        obtain rfl := List.mem_singleton.mp hhead
        exact Nat.le_refl _
    · have hle := ih hmore
      omega

/-- A replaced call is decided about. -/
theorem mem_sitesOf_of_mem_replacementsOf {pieces : List Piece} {number offset : Nat}
    {replacement : Replacement} (hmem : replacement ∈ replacementsOf number offset pieces) :
    ⟨replacement.position, replacement.builtin, .ok replacement.list, []⟩ ∈
      sitesOf number offset pieces := by
  induction pieces generalizing number offset with
  | nil => cases hmem
  | cons piece more ih =>
    rw [sitesOf]
    rcases List.mem_append.mp hmem with hhead | hmore
    · cases piece with
      | verbatim text | kept builtin line reason => cases hhead
      | call builtin gap list operands =>
        obtain rfl := List.mem_singleton.mp hhead
        exact List.mem_append_left _ List.mem_cons_self
    · exact List.mem_append_right _ (ih hmore)

/-- The calls among the operands of a replaced call. -/
def Replacement.sites (replacement : Replacement) (operands : List (List Piece)) :
    List CallSite :=
  sitesOfOperands replacement.site
    (replacement.position + replacement.builtin.spelling.length + replacement.gap.length + 1)
    operands

/-- A call that is kept stands between the replaced calls or in one of them. -/
theorem apart_or_inside {pieces : List Piece} {number offset : Nat} {site : CallSite}
    {reason : KeepReason} (hsite : site ∈ sitesOf number offset pieces)
    (hkept : site.verdict = .error reason) :
    (∀ replacement ∈ replacementsOf number offset pieces,
        replacement.stop ≤ site.position ∨ site.position ≤ replacement.position) ∨
      ∃ replacement ∈ replacementsOf number offset pieces, ∃ operands,
        .call replacement.builtin replacement.gap replacement.list operands ∈ pieces ∧
          site ∈ replacement.sites operands ∧
          replacement.sites operands ⊆ sitesOf number offset pieces := by
  induction pieces generalizing number offset with
  | nil => cases hsite
  | cons piece more ih =>
    rw [sitesOf] at hsite
    rcases List.mem_append.mp hsite with hhead | hmore
    · cases piece with
      | verbatim text => cases hhead
      | kept builtin line reason =>
        obtain rfl := List.mem_singleton.mp hhead
        exact .inl fun replacement hmem => .inr (le_position_of_mem_replacementsOf hmem)
      | call builtin gap list operands =>
        rcases List.mem_cons.mp hhead with rfl | hinside
        · cases hkept
        · refine .inr ⟨⟨offset, builtin, gap, list, number⟩, ?_, operands, List.mem_cons_self,
            hinside, fun other hother => ?_⟩
          · exact List.mem_append_left _ List.mem_cons_self
          · exact List.mem_append_left _ (List.mem_cons_of_mem _ hother)
    · have hbehind := le_position_of_mem_sitesOf hmore
      rcases ih hmore with hapart | ⟨replacement, hmem, operands, hcall, hinside, hsub⟩
      · refine .inl fun replacement hmem => ?_
        rcases List.mem_append.mp hmem with hhead | hmem
        · cases piece with
          | verbatim text | kept builtin line reason => cases hhead
          | call builtin gap list operands =>
            obtain rfl := List.mem_singleton.mp hhead
            exact .inl hbehind
        · exact hapart replacement hmem
      · exact .inr ⟨replacement, List.mem_append_right _ hmem, operands,
          List.mem_cons_of_mem _ hcall, hinside,
          fun other hother => List.mem_append_right _ (hsub hother)⟩

/-- The operands of a call of an outline are outlines of its arguments. -/
theorem exists_outlineOperands {line : Nat} {before text : Bytes} {builtin : Builtin} {gap : Bytes}
    {list : ArgumentList} {operands : List (List Piece)}
    (hcall : .call builtin gap list operands ∈ outline line before text) :
    ∃ line', operands = outlineOperands line' (list.arguments.take builtin.operandCount) := by
  induction line, before, text using outline_induction with
  | nil line before =>
    rw [outline] at hcall
    cases hcall
  | copied hnext hopening ih =>
    rw [outline_copied hnext hopening] at hcall
    rcases List.mem_cons.mp hcall with hhead | hmore
    · cases hhead
    · exact ih hmore
  | kept hnext hopening hjudge ih =>
    rw [outline_kept hnext hopening hjudge] at hcall
    rcases List.mem_cons.mp hcall with hhead | hmore
    · cases hhead
    · exact ih hmore
  | expanded hnext hopening hjudge _ ih =>
    rw [outline_expanded hnext hopening hjudge] at hcall
    rcases List.mem_cons.mp hcall with hhead | hmore
    · cases hhead
      exact ⟨_, rfl⟩
    · exact ih hmore

/-- A call among the operands of a replaced call stands in one of them. -/
theorem exists_operand_of_mem {arguments : List Bytes} {line number offset : Nat} {site : CallSite}
    (hsite : site ∈ sitesOfOperands number offset (outlineOperands line arguments)) :
    ∃ passed argument later line' number' inner, arguments = passed ++ argument :: later ∧
      number' = (renderOperands number (outlineOperands line passed)).2 ∧
      inner ∈ sitesOf number' 0 (outline line' [] argument) ∧
      site = (inner.shift (offset + outlineSize passed)).inside
        (renderPieces number' (outline line' [] argument)).1 ∧
      ∀ other ∈ sitesOf number' 0 (outline line' [] argument),
        (other.shift (offset + outlineSize passed)).inside
            (renderPieces number' (outline line' [] argument)).1 ∈
          sitesOfOperands number offset (outlineOperands line arguments) := by
  induction arguments generalizing line number offset with
  | nil =>
    rw [outlineOperands] at hsite
    cases hsite
  | cons argument more ih =>
    have hshift := sitesOf_shift (outline line [] argument) offset number 0
    rw [outlineOperands, sitesOfOperands, source_outline] at hsite ⊢
    rw [Nat.add_zero] at hshift
    rcases List.mem_append.mp hsite with hfirst | hmore
    · rw [hshift, List.map_map] at hfirst ⊢
      obtain ⟨inner, hinner, rfl⟩ := List.mem_map.mp hfirst
      refine ⟨[], argument, more, line, number, inner, rfl, ?_, hinner, rfl, fun other hother => ?_⟩
      · rw [outlineOperands]
        rfl
      · exact List.mem_append_left _ (List.mem_map_of_mem hother)
    · obtain ⟨passed, other, later, line', number', inner, rfl, hnumber, hinner, hsite, hsub⟩ :=
        ih hmore
      have hsize : offset + outlineSize (argument :: passed) =
          offset + argument.length + 1 + outlineSize passed := by
        rw [outlineSize]
        omega
      refine ⟨argument :: passed, other, later, line', number', inner, rfl, ?_, hinner, ?_,
        fun site hmem => ?_⟩
      · rw [hnumber, outlineOperands]
        rfl
      · rw [hsize]
        exact hsite
      · rw [hsize]
        exact List.mem_append_right _ (hsub site hmem)

/-! ## Where an argument stands -/

/-- A stretch between commas stands behind those in front of it. -/
theorem exists_stretch_eq {first argument : Bytes} {more passed later : List Bytes}
    (hsplit : first :: more = passed ++ argument :: later) :
    ∃ front back, first ++ more.flatMap (Byte.comma :: ·) = front ++ argument ++ back ∧
      front.length = outlineSize passed := by
  induction passed generalizing first more with
  | nil =>
    obtain ⟨rfl, rfl⟩ := List.cons.inj hsplit
    exact ⟨[], _, rfl, rfl⟩
  | cons stretch passed ih =>
    obtain ⟨rfl, hmore⟩ := List.cons.inj hsplit
    cases more with
    | nil => simp at hmore
    | cons second more =>
      obtain ⟨front, back, hwhole, hlength⟩ := ih hmore
      refine ⟨first ++ Byte.comma :: front, back, ?_, ?_⟩
      · rw [List.flatMap_cons, List.cons_append, hwhole]
        simp only [List.append_assoc, List.cons_append]
      · rw [List.length_append, List.length_cons, outlineSize, hlength]
        omega

/-- An argument of a replaced call stands between the parentheses of the call. -/
theorem exists_argument_eq {source argument : Bytes} {replacement : Replacement}
    {passed later : List Bytes} {count : Nat} (hstands : replacement.Stands source)
    (harguments : replacement.list.arguments.take count = passed ++ argument :: later) :
    ∃ front back, source = front ++ argument ++ back ∧
      front.length = replacement.position + replacement.builtin.spelling.length +
        replacement.gap.length + 1 + outlineSize passed := by
  obtain ⟨inner, hdrop, hsplit⟩ := hstands.opened
  have hstretches : replacement.list.first :: replacement.list.more =
      passed ++ argument :: (later ++ replacement.list.arguments.drop count) := by
    have hwhole := List.take_append_drop count replacement.list.arguments
    rw [harguments] at hwhole
    unfold ArgumentList.arguments at hwhole ⊢
    split at hwhole
    · simp at hwhole
    · next hblank =>
      rw [if_neg hblank]
      simpa using hwhole.symm
  obtain ⟨front, back, hinside, hlength⟩ := exists_stretch_eq hstretches
  have hinner := append_of_splitArguments? hsplit
  rw [ArgumentList.inside, hinside] at hinner
  refine ⟨source.take replacement.position ++ (replacement.builtin.spelling ++ replacement.gap ++
    [Byte.openParen]) ++ front, back ++ Byte.closeParen :: replacement.list.behind, ?_, ?_⟩
  · conv_lhs => rw [← List.take_append_drop replacement.position source, hdrop, ← hinner]
    simp only [List.append_assoc, List.cons_append, List.nil_append]
  · have hfits : replacement.position ≤ source.length := by
      have hrest := congrArg List.length hdrop
      simp only [List.length_drop, List.length_append, List.length_cons] at hrest
      omega
    simp only [List.length_append, List.length_take, List.length_cons, List.length_nil, hlength,
      Nat.min_eq_left hfits]
    omega

/-- A call that is kept for its arguments or for a directive has a closing parenthesis. -/
theorem CallSite.Judged.exists_tail {first : Nat} {source : Bytes} {site : CallSite}
    {reason : KeepReason} (hjudged : site.Judged first source)
    (hkept : site.verdict = .error reason) (hreason : reason ≠ .unterminated) :
    ∃ gap list, site.tail? source = some (gap, list) := by
  cases reason with
  | arity expected found =>
    obtain ⟨gap, list, htail, -⟩ := hjudged.arity _ _ hkept
    exact ⟨gap, list, htail⟩
  | unterminated => exact absurd rfl hreason
  | directive line =>
    obtain ⟨gap, list, -, htail, -⟩ := hjudged.directive line hkept
    exact ⟨gap, list, htail⟩

/-- A call stands in the source from its name to its closing parenthesis. -/
theorem CallSite.Judged.written {first : Nat} {source gap : Bytes} {site : CallSite}
    {list : ArgumentList} (hjudged : site.Judged first source)
    (htail : site.tail? source = some (gap, list)) :
    site.builtin.spelling ++ callTail gap list <+: source.drop site.position := by
  obtain ⟨inner, hdrop, -, hsplit⟩ := hjudged.exists_inner htail
  refine ⟨list.behind, ?_⟩
  rw [hdrop, ← append_of_splitArguments? hsplit]
  simp [callTail]

end PlainSync.Source
