import PlainSync.Proofs.Normalize.Accounting
import PlainSync.Proofs.Source.Regions

/-!
# Untouched regions

Comments, literals and directives, as C delimits them, hold no call of a report, and what of them is
not inside a replaced call is copied. Replaced calls consist of whole lexemes, so no region reaches
into one or out of it.
-/

namespace PlainSync.Source

open Bytes

/-! ## Places between lexemes -/

section Cuts

variable {list front back front' back' : List Lexeme} {lexeme other : Lexeme}

/-- The length of lexemes with one in their midst. -/
theorem length_textOf_append_cons (front back : List Lexeme) (lexeme : Lexeme) :
    (textOf (front ++ lexeme :: back)).length =
      (textOf front).length + lexeme.text.length + (textOf back).length := by
  rw [textOf_append, textOf_cons, List.length_append, List.length_append, Nat.add_assoc]

/-- A list that is cut is cut in front of a lexeme or behind it. -/
theorem exists_of_append_cons (hlist : front ++ lexeme :: back = front' ++ back') :
    (∃ middle, front' = front ++ lexeme :: middle) ∨
      ∃ middle, front = front' ++ middle ∧ back' = middle ++ lexeme :: back := by
  rcases List.append_eq_append_iff.mp hlist with ⟨middle, rfl, hback⟩ | ⟨middle, rfl, hback⟩
  · cases middle with
    | nil => exact .inr ⟨[], by simp, hback.symm⟩
    | cons first middle =>
      obtain ⟨rfl, -⟩ := List.cons.inj hback
      exact .inl ⟨middle, rfl⟩
  · exact .inr ⟨middle, rfl, hback⟩

/-- No lexeme goes on across a place between two lexemes. -/
theorem length_le_or_le_of_append (hlist : front ++ lexeme :: back = front' ++ back') :
    (textOf front).length + lexeme.text.length ≤ (textOf front').length ∨
      (textOf front').length ≤ (textOf front).length := by
  rcases exists_of_append_cons hlist with ⟨middle, rfl⟩ | ⟨middle, rfl, -⟩
  · rw [length_textOf_append_cons]
    exact .inl (Nat.le_add_right _ _)
  · rw [textOf_append, List.length_append]
    exact .inr (Nat.le_add_right _ _)

/-- Two lexemes of a list stand one behind the other. -/
theorem length_le_or_le_of_ne (hne : lexeme ≠ other)
    (hlist : front ++ lexeme :: back = front' ++ other :: back') :
    (textOf front).length + lexeme.text.length ≤ (textOf front').length ∨
      (textOf front').length + other.text.length ≤ (textOf front).length := by
  rcases exists_of_append_cons hlist with ⟨middle, rfl⟩ | ⟨middle, rfl, hback⟩
  · rw [length_textOf_append_cons]
    exact .inl (Nat.le_add_right _ _)
  · cases middle with
    | nil => exact absurd (List.cons.inj hback).1.symm hne
    | cons first middle =>
      obtain ⟨rfl, -⟩ := List.cons.inj hback
      rw [length_textOf_append_cons]
      exact .inr (Nat.le_add_right _ _)

/-- The name of a call is a word of its own. -/
theorem exists_word_of_mem_callsOf {offset : Nat} {call : CodeCall}
    (hcall : call ∈ callsOf offset list) :
    ∃ front back, list = front ++ .word call.builtin.spelling :: back ∧
      call.position = offset + (textOf front).length := by
  induction list generalizing offset with
  | nil => cases hcall
  | cons lexeme list ih =>
    have hmore (hcall : call ∈ callsOf (offset + lexeme.text.length) list) :
        ∃ front back, lexeme :: list = front ++ .word call.builtin.spelling :: back ∧
          call.position = offset + (textOf front).length := by
      obtain ⟨front, back, rfl, hposition⟩ := ih hcall
      refine ⟨lexeme :: front, back, rfl, ?_⟩
      rw [hposition, textOf_cons, List.length_append, Nat.add_assoc]
    cases hopening : opening? lexeme (textOf list) with
    | none =>
      rw [callsOf_cons_none hopening] at hcall
      exact hmore hcall
    | some opened =>
      obtain ⟨builtin, gap, inner⟩ := opened
      rw [callsOf_cons_some hopening] at hcall
      rcases List.mem_cons.mp hcall with rfl | hcall
      · obtain ⟨rfl, -, -⟩ := opening?_eq_some.mp hopening
        exact ⟨[], list, rfl, rfl⟩
      · exact hmore hcall

/-- The name of a call stands in front of a comment, literal or directive of the scan or behind
it. -/
theorem outside_of_isRegion {source : Bytes} {call : CodeCall} (hcall : call ∈ codeCalls source)
    (hlexemes : lexemes [] source = front ++ lexeme :: back) (hkind : lexeme.isRegion) :
    call.position + call.builtin.spelling.length ≤ (textOf front).length ∨
      (textOf front).length + lexeme.text.length ≤ call.position := by
  obtain ⟨front', back', hword, hposition⟩ := exists_word_of_mem_callsOf hcall
  have hne : lexeme ≠ .word call.builtin.spelling := by
    rintro rfl
    cases hkind
  rw [hposition, Nat.zero_add]
  exact (length_le_or_le_of_ne hne (hlexemes.symm.trans hword)).symm

end Cuts

/-! ## Replaced calls -/

/-- A call consists of whole lexemes of a list whose text begins at `offset`. -/
def Replacement.IsWhole (offset : Nat) (list : List Lexeme) (replacement : Replacement) : Prop :=
  ∃ front inside back, list = front ++ inside ++ back ∧
    replacement.position = offset + (textOf front).length ∧ textOf inside = replacement.written

namespace Replacement.IsWhole

variable {offset : Nat} {front list back : List Lexeme} {lexeme : Lexeme}
  {replacement : Replacement}

/-- A call is whole lexemes behind others. -/
theorem prepend (front : List Lexeme)
    (hwhole : replacement.IsWhole (offset + (textOf front).length) list) :
    replacement.IsWhole offset (front ++ list) := by
  obtain ⟨others, inside, back, rfl, hposition, hinside⟩ := hwhole
  refine ⟨front ++ others, inside, back, by simp only [List.append_assoc], ?_, hinside⟩
  rw [hposition, textOf_append, List.length_append, Nat.add_assoc]

/-- A call is whole lexemes behind one more. -/
theorem cons (hwhole : replacement.IsWhole (offset + lexeme.text.length) list) :
    replacement.IsWhole offset (lexeme :: list) :=
  .prepend [lexeme] (by rwa [textOf_cons, textOf_nil, List.append_nil])

/-- A lexeme stands in front of the call, behind it or inside it. -/
theorem stop_le_or (hwhole : replacement.IsWhole 0 list) (hlist : list = front ++ lexeme :: back) :
    replacement.stop ≤ (textOf front).length ∨
      (textOf front).length + lexeme.text.length ≤ replacement.position ∨
      (replacement.position ≤ (textOf front).length ∧
        (textOf front).length + lexeme.text.length ≤ replacement.stop) := by
  obtain ⟨others, inside, more, rfl, hposition, hinside⟩ := hwhole
  have hstop : replacement.stop = (textOf (others ++ inside)).length := by
    rw [Replacement.stop, hposition, ← hinside, Nat.zero_add, textOf_append, List.length_append]
  rw [Nat.zero_add] at hposition
  have hbegins := length_le_or_le_of_append (hlist.symm.trans (List.append_assoc _ _ _))
  have hends := length_le_or_le_of_append hlist.symm
  omega

end Replacement.IsWhole

/-- An outline exchanges whole lexemes. -/
theorem isWhole_of_mem_replacementsOf {replacement : Replacement} {line : Nat}
    {before text : Bytes} (hundivided : Undivided (lexemes before text)) (site offset : Nat)
    (hmem : replacement ∈ replacementsOf site offset (outline line before text)) :
    replacement.IsWhole offset (lexemes before text) := by
  induction line, before, text using outline_induction generalizing site offset with
  | nil line before =>
    rw [outline] at hmem
    cases hmem
  | @copied line before b rest lexeme behind hnext hopening ih =>
    rw [lexemes_cons hnext] at hundivided ⊢
    rw [outline_copied hnext hopening, replacementsOf_copied _ rfl] at hmem
    have hmore := fun text htext => hundivided text (List.mem_cons_of_mem _ htext)
    have hwhole := ih hmore _ (offset + lexeme.text.length) hmem
    exact .cons hwhole
  | @kept line before b rest lexeme behind builtin gap inner reason hnext hopening hjudge ih =>
    have hname := (text_of_opening hopening).symm
    rw [lexemes_cons hnext] at hundivided ⊢
    rw [outline_kept hnext hopening hjudge, replacementsOf_copied _ rfl, Piece.source, hname]
      at hmem
    have hmore := fun text htext => hundivided text (List.mem_cons_of_mem _ htext)
    exact .cons (ih hmore _ _ hmem)
  | @expanded line before b rest lexeme behind builtin gap inner list hnext hopening hjudge
      hargument ih =>
    have hname := (text_of_opening hopening).symm
    -- Without digit separators the argument list is cut between lexemes.
    obtain ⟨first, more, hcut, hfirst, hmore, -⟩ :=
      exists_lexemes_of_call hundivided hnext hopening hjudge
    have hcall : textOf (lexeme :: openingLexemes gap ++ insideOf first more ++
        [.mark Byte.closeParen]) = builtin.spelling ++ callTail gap list := by
      simp [callTail, hname, textOf_insideOf_eq_inside hfirst hmore, Lexeme.text]
    rw [hcut, List.append_cons] at hundivided ⊢
    rw [outline_expanded hnext hopening hjudge, replacementsOf] at hmem
    rcases List.mem_append.mp hmem with hhead | hbehind
    · rw [Piece.replacement?, Option.toList_some, List.mem_singleton] at hhead
      rw [hhead]
      exact ⟨[], _, _, rfl, rfl, hcall⟩
    · rw [Piece.source, ← hcall] at hbehind
      exact .prepend _ (ih hundivided.of_append.2 _ _ hbehind)

/-! ## Copied regions -/

/-- The bytes of a region. -/
def Region.text (source : Bytes) (region : Region) : Bytes :=
  (source.take region.stop).drop region.start

/-- A region is copied between what becomes of the text in front of it and of that behind it. -/
def Region.IsCopied (config : Config) (source output : Bytes) (replacements : List Replacement)
    (region : Region) : Prop :=
  ∃ left right, replacements = left ++ right ∧
    (∀ replacement ∈ left, replacement.stop ≤ region.start) ∧
    (∀ replacement ∈ right, region.stop ≤ replacement.position) ∧
    output = patch config 0 (source.take region.start) left ++ region.text source ++
      patch config region.stop (source.drop region.stop) right

/-- A text from one place on is the stretch to another and the rest. -/
theorem drop_take_append (text : Bytes) {start stop : Nat} (hle : start ≤ stop) :
    (text.take stop).drop start ++ text.drop stop = text.drop start := by
  have hstop : text.drop stop = (text.drop start).drop (stop - start) := by
    rw [List.drop_drop, Nat.add_sub_cancel' hle]
  rw [hstop, List.drop_take, List.take_append_drop]

/-- A source is patched in front of a stretch and behind it, if no call reaches into the stretch. -/
theorem exists_patch_eq (config : Config) {source : Bytes} {offset start stop : Nat}
    {replacements : List Replacement} (hstart : offset ≤ start) (hle : start ≤ stop)
    (hstop : stop ≤ source.length)
    (hpositions : ∀ replacement ∈ replacements, offset ≤ replacement.position)
    (hapart : replacements.Pairwise fun first second =>
      first.position < second.position ∧ first.stop ≤ second.position)
    (houtside : ∀ replacement ∈ replacements,
      replacement.stop ≤ start ∨ stop ≤ replacement.position) :
    ∃ left right, replacements = left ++ right ∧
      (∀ replacement ∈ left, replacement.stop ≤ start) ∧
      (∀ replacement ∈ right, stop ≤ replacement.position) ∧
      patch config offset (source.drop offset) replacements =
        patch config offset ((source.take start).drop offset) left ++
          (source.take stop).drop start ++ patch config stop (source.drop stop) right := by
  have hfront : (source.take start).drop offset ++ (source.take stop).drop start =
      (source.take stop).drop offset := by
    have hwhole := drop_take_append (source.take stop) hstart
    rwa [List.take_take, Nat.min_eq_left hle] at hwhole
  induction replacements generalizing offset with
  | nil =>
    refine ⟨[], [], rfl, nofun, nofun, ?_⟩
    rw [patch, patch, patch, hfront, drop_take_append source (Nat.le_trans hstart hle)]
  | cons replacement more ih =>
    have hposition := hpositions replacement List.mem_cons_self
    have hlt := replacement.position_lt_stop
    obtain ⟨hbehind, hapart⟩ := List.pairwise_cons.mp hapart
    rcases houtside replacement List.mem_cons_self with hbefore | hafter
    · -- The stretch stands behind the call, so the induction goes on behind it.
      have hmore : (source.take start).drop replacement.stop ++ (source.take stop).drop start =
          (source.take stop).drop replacement.stop := by
        have hwhole := drop_take_append (source.take stop) hbefore
        rwa [List.take_take, Nat.min_eq_left hle] at hwhole
      obtain ⟨left, right, rfl, hleft, hright, hpatch⟩ := ih hbefore
        (fun other hother => (hbehind other hother).2) hapart
        (fun other hother => houtside other (List.mem_cons_of_mem _ hother)) hmore
      refine ⟨replacement :: left, right, rfl, List.forall_mem_cons.mpr ⟨hbefore, hleft⟩, hright,
        ?_⟩
      have htake : ((source.take start).drop offset).take (replacement.position - offset) =
          (source.drop offset).take (replacement.position - offset) := by
        rw [List.drop_take, List.take_take, Nat.min_eq_left (by omega)]
      rw [patch, patch, htake, List.drop_drop, List.drop_drop,
        Nat.add_sub_cancel' (by omega : offset ≤ replacement.stop), hpatch]
      simp only [List.append_assoc]
    · -- The stretch stands in front of all calls that are left.
      have hright : ∀ other ∈ replacement :: more, stop ≤ other.position := by
        refine List.forall_mem_cons.mpr ⟨hafter, fun other hother => ?_⟩
        have hlater := (hbehind other hother).1
        omega
      have hlength : offset + ((source.take stop).drop offset).length = stop := by
        rw [List.length_drop, List.length_take, Nat.min_eq_left hstop]
        omega
      have hpatch := patch_append config offset ((source.take stop).drop offset)
        (source.drop stop) (by rwa [hlength])
      rw [hlength, drop_take_append source (Nat.le_trans hstart hle)] at hpatch
      refine ⟨[], replacement :: more, rfl, nofun, hright, ?_⟩
      rw [hpatch, ← hfront]
      rfl

/-- Nothing in a region is reported, and it is copied unless it is inside a replaced call. -/
structure Region.Untouched (config : Config) (source output : Bytes) (accounts : List Account)
    (replacements : List Replacement) (region : Region) : Prop where
  names : ∀ account ∈ accounts,
    account.call.position + account.call.builtin.spelling.length ≤ region.start ∨
      region.stop ≤ account.call.position
  copied : (∃ replacement ∈ replacements,
      replacement.position ≤ region.start ∧ region.stop ≤ replacement.stop) ∨
    region.IsCopied config source output replacements

/-- A region that lies in one comment, literal or directive of the scan is inside a replaced call or
copied. -/
theorem copied_of_lexeme {config : Config} {source text : Bytes} {expanded : List Builtin}
    {replacements : List Replacement} {front back : List Lexeme} {lexeme : Lexeme} {region : Region}
    (hreplaces : Replaces config source 0 0 text expanded replacements)
    (hwhole : ∀ replacement ∈ replacements, replacement.IsWhole 0 (lexemes [] source))
    (hlexemes : lexemes [] source = front ++ lexeme :: back)
    (hstart : (textOf front).length ≤ region.start) (hlt : region.start < region.stop)
    (hstop : region.stop ≤ (textOf front).length + lexeme.text.length) :
    (∃ replacement ∈ replacements,
        replacement.position ≤ region.start ∧ region.stop ≤ replacement.stop) ∨
      region.IsCopied config source text replacements := by
  by_cases hinside : ∃ replacement ∈ replacements,
      replacement.position ≤ region.start ∧ region.stop ≤ replacement.stop
  · exact .inl hinside
  · have hend : region.stop ≤ source.length := by
      have hlength := congrArg List.length (textOf_lexemes [] source)
      rw [hlexemes, length_textOf_append_cons] at hlength
      omega
    have houtside : ∀ replacement ∈ replacements,
        replacement.stop ≤ region.start ∨ region.stop ≤ replacement.position := by
      intro replacement hmem
      have hplace := (hwhole replacement hmem).stop_le_or hlexemes
      have hnot : ¬ (replacement.position ≤ region.start ∧ region.stop ≤ replacement.stop) :=
        fun hin => hinside ⟨replacement, hmem, hin⟩
      omega
    obtain ⟨left, right, hsplit, hleft, hright, hpatch⟩ := exists_patch_eq config
      (Nat.zero_le _) (Nat.le_of_lt hlt) hend hreplaces.offset_le hreplaces.apart houtside
    exact .inr ⟨left, right, hsplit, hleft, hright, hreplaces.text.trans hpatch⟩

/-- Comments, literals and directives are untouched in a source whose scan ends all of them where C
does. -/
theorem untouched_of_mem_regions {config : Config} {source : Bytes}
    (henabled : config.normalizeAtomics) (hundivided : Undivided (lexemes [] source))
    (hhash : .mark Byte.hash ∉ lexemes [] source) (hsettled : Settled (lexemes [] source)) :
    ∃ accounts replacements, Accounting config source (normalize config source) accounts ∧
      Replaces config source 0 0 (normalize config source).text
        (normalize config source).report.expanded replacements ∧
      ∀ region ∈ regions source,
        region.Untouched config source (normalize config source).text accounts replacements := by
  obtain ⟨accounts, haccounting⟩ := exists_accounting henabled hundivided hhash
  have hnormalize : normalize config source =
      ⟨(renderPieces 0 (outline 1 [] source)).1,
        { expanded := expandedPieces (outline 1 [] source)
          kept := keptInPieces (outline 1 [] source) }⟩ := by
    simp only [normalize, Session.normalize, if_pos henabled]
  have hreplaces : Replaces config source 0 0 (normalize config source).text
      (normalize config source).report.expanded (replacementsOf 0 0 (outline 1 [] source)) := by
    rw [hnormalize]
    exact replaces_outline henabled 1 [] source source 0 rfl (wordsEnd_nil _)
  refine ⟨accounts, _, haccounting, hreplaces, fun region hregion => ?_⟩
  obtain ⟨front, lexeme, back, hlexemes, hkind, hstart, hlt, hstop⟩ :=
    exists_lexeme_of_mem_regions hhash hsettled hregion
  constructor
  · intro account haccount
    have hcall : account.call ∈ codeCalls source :=
      haccounting.calls ▸ List.mem_map_of_mem haccount
    have houtside := outside_of_isRegion hcall hlexemes hkind
    omega
  · exact copied_of_lexeme hreplaces
      (fun replacement hmem => isWhole_of_mem_replacementsOf hundivided 0 0 hmem)
      hlexemes hstart hlt hstop

/-- A call in a directive, and one with a comment between its parentheses. -/
def mentionedCall : Bytes :=
  ofString "#define A \\\n__sync_synchronize() /* a */\n"
    ++ ofString "\"\\\n\" /* \\\n */ __sync_synchronize(/* b */) // c"

/-- Neither the call in the directive nor the comments are touched. -/
theorem untouched_mentionedCall :
    (regions mentionedCall).length = 5 ∧
    ∃ accounts replacements,
      Accounting {} mentionedCall (normalize {} mentionedCall) accounts ∧
      Replaces {} mentionedCall 0 0 (normalize {} mentionedCall).text
        (normalize {} mentionedCall).report.expanded replacements ∧
      ∀ region ∈ regions mentionedCall, region.Untouched {} mentionedCall
        (normalize {} mentionedCall).text accounts replacements :=
  ⟨by decide +kernel, untouched_of_mem_regions rfl (by decide +kernel) (by decide +kernel)
    (by decide +kernel)⟩

/-- A line comment that a splice continues. -/
def continuedComment : Bytes := ofString "// a \\\n__sync_synchronize()"

/-- A directive that ends behind the comment that it opens. -/
def openedComment : Bytes := ofString "#define A /*\n__sync_synchronize() */"

/-- A directive behind a comment. -/
def indentedDirective : Bytes := ofString "/* c */ #define A __sync_synchronize()"

/-- The scan ends line comments and directives at line ends that do not end them, and it sees no
directive behind a comment. -/
theorem expanded_in_regions :
    (regions continuedComment = [⟨0, continuedComment.length⟩] ∧
      (normalize {} continuedComment).report.expanded = [.synchronize] ∧
      (normalize {} continuedComment).text = ofString "// a \\\n((void)0)") ∧
    (regions openedComment = [⟨0, openedComment.length⟩] ∧
      (normalize {} openedComment).report.expanded = [.synchronize] ∧
      (normalize {} openedComment).text = ofString "#define A /*\n((void)0) */") ∧
    regions indentedDirective = [⟨0, 7⟩, ⟨8, indentedDirective.length⟩] ∧
      (normalize {} indentedDirective).report.expanded = [.synchronize] ∧
      (normalize {} indentedDirective).text = ofString "/* c */ #define A ((void)0)" := by
  decide +kernel

end PlainSync.Source
