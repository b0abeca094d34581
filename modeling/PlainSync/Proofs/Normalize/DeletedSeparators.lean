import PlainSync.Proofs.Normalize.Accounting
import PlainSync.Proofs.Source.Separators

/-!
# Deleted separators

Normalizing a source without some of its digit separators gives the same report, and the same text
without those separators, if no separator stands in what a call reads. The arguments of a call are
cut byte by byte, and there a separator opens a character literal.
-/

namespace PlainSync.Source

open Bytes

/-- How many bytes a call reads behind its opening parenthesis: its argument list, or everything if
the list is not closed. -/
def readLength (text : Bytes) : Nat :=
  match splitArguments? 0 text with
  | some list => list.inside.length
  | none => text.length

/-- No number with digit separators begins in what a call reads. -/
def ReadsUndivided : List Lexeme → Prop
  | [] => True
  | lexeme :: more =>
    (∀ opened ∈ opening? lexeme (textOf more),
      UndividedUpTo (opened.2.1.length + 1 + readLength opened.2.2) more) ∧ ReadsUndivided more

instance (span : Nat) (list : List Lexeme) : Decidable (UndividedUpTo span list) :=
  List.decidableBAll _ _

instance decidableReadsUndivided : (list : List Lexeme) → Decidable (ReadsUndivided list)
  | [] => isTrue trivial
  | lexeme :: more =>
    have := decidableReadsUndivided more
    inferInstanceAs (Decidable ((∀ opened ∈ opening? lexeme (textOf more),
      UndividedUpTo (opened.2.1.length + 1 + readLength opened.2.2) more) ∧ ReadsUndivided more))

/-- Lexemes that are read undivided are so without those in front of them. -/
theorem ReadsUndivided.of_append {front back : List Lexeme}
    (hreads : ReadsUndivided (front ++ back)) : ReadsUndivided back := by
  induction front with
  | nil => exact hreads
  | cons lexeme front ih => exact ih hreads.2

/-- Lexemes are undivided without those in front of them, as far as the whole is. -/
theorem UndividedUpTo.of_append {span : Nat} {front back : List Lexeme}
    (hundivided : UndividedUpTo span (front ++ back)) :
    UndividedUpTo (span - (textOf front).length) back := by
  induction front generalizing span with
  | nil => exact hundivided
  | cons lexeme front ih =>
    rw [textOf_cons, List.length_append, ← Nat.sub_sub]
    exact ih hundivided.tail

/-- None of the lexemes that the bound covers is divided. -/
theorem UndividedUpTo.not_isDivided {span : Nat} {front back : List Lexeme}
    (hundivided : UndividedUpTo span (front ++ back))
    (hpos : ∀ lexeme ∈ front, 0 < lexeme.text.length) (hspan : (textOf front).length ≤ span) :
    ∀ lexeme ∈ front, lexeme.isDivided = false := by
  induction front generalizing span with
  | nil => exact nofun
  | cons first front ih =>
    rw [textOf_cons, List.length_append] at hspan
    have hfirst := hpos first List.mem_cons_self
    intro lexeme hlexeme
    rcases List.mem_cons.mp hlexeme with rfl | hmore
    · exact hundivided.head (by omega)
    · exact ih hundivided.tail (fun other hother => hpos other (List.mem_cons_of_mem _ hother))
        (by omega) lexeme hmore

/-! ## Lists that correspond -/

/-- Two lists of lexemes are thinned one after the other. -/
theorem exists_of_forall₂_append {front back list' : List Lexeme}
    (hthinned : List.Forall₂ Lexeme.Thinned (front ++ back) list') :
    ∃ front' back', list' = front' ++ back' ∧ List.Forall₂ Lexeme.Thinned front front' ∧
      List.Forall₂ Lexeme.Thinned back back' := by
  have hfront := List.forall₂_take front.length hthinned
  have hback := List.forall₂_drop front.length hthinned
  rw [List.take_left] at hfront
  rw [List.drop_left] at hback
  exact ⟨_, _, (List.take_append_drop front.length list').symm, hfront, hback⟩

/-- Undivided lexemes stay as they are. -/
theorem eq_of_not_isDivided {list list' : List Lexeme}
    (hthinned : List.Forall₂ Lexeme.Thinned list list')
    (hdivided : ∀ lexeme ∈ list, lexeme.isDivided = false) : list' = list := by
  induction hthinned with
  | nil => rfl
  | cons hlexeme hmore ih =>
    rw [hlexeme.eq_of_isDivided (hdivided _ List.mem_cons_self),
      ih fun other hother => hdivided other (List.mem_cons_of_mem _ hother)]

/-- An undivided front is the same in both lists. -/
theorem exists_eq_append_of_forall₂ {front back list' : List Lexeme}
    (hthinned : List.Forall₂ Lexeme.Thinned (front ++ back) list')
    (hdivided : ∀ lexeme ∈ front, lexeme.isDivided = false) :
    ∃ back', list' = front ++ back' ∧ List.Forall₂ Lexeme.Thinned back back' := by
  obtain ⟨front', back', rfl, hfront, hback⟩ := exists_of_forall₂_append hthinned
  rw [eq_of_not_isDivided hfront hdivided]
  exact ⟨back', rfl, hback⟩

/-! ## Calls -/

section Calls

variable {before before' behind inner : Bytes} {more' : List Lexeme}

/-- White space stays as it is, and so does what stands behind it. -/
theorem takeWhile_white_thinned
    (hmore : List.Forall₂ Lexeme.Thinned (lexemes before behind) more') :
    (textOf more').takeWhile Byte.isWhiteSpace = behind.takeWhile Byte.isWhiteSpace ∧
      ((textOf more').dropWhile Byte.isWhiteSpace).head? =
        (behind.dropWhile Byte.isWhiteSpace).head? := by
  induction before, behind using lexemes_induction generalizing more' with
  | nil before =>
    rw [lexemes_nil] at hmore
    cases hmore
    exact ⟨rfl, rfl⟩
  | @cons before b rest lexeme behind hnext ih =>
    by_cases hb : Byte.isWhiteSpace b
    · rw [nextLexeme_of_isWhiteSpace before rest hb] at hnext
      cases hnext
      rw [lexemes_cons (nextLexeme_of_isWhiteSpace before rest hb)] at hmore
      obtain ⟨lexeme', others, hlexeme, hothers, rfl⟩ := List.forall₂_cons_left_iff.mp hmore
      obtain rfl := hlexeme.eq_of_number?_eq_none rfl
      obtain ⟨htake, hhead⟩ := ih hothers
      simp only [textOf_cons, Lexeme.text, List.singleton_append, List.takeWhile_cons_of_pos hb,
        List.dropWhile_cons_of_pos hb, htake, hhead, and_self]
    · have hhead := head?_of_thinned hmore
      obtain ⟨rest', htext⟩ := List.head?_eq_some_iff.mp hhead
      rw [htext]
      simp only [List.takeWhile_cons_of_neg hb, List.dropWhile_cons_of_neg hb, List.head?_cons,
        and_self]

/-- The same calls are opened. -/
theorem opening?_thinned (lexeme : Lexeme)
    (hmore : List.Forall₂ Lexeme.Thinned (lexemes before behind) more') :
    (opening? lexeme (textOf more')).map (fun opened => (opened.1, opened.2.1)) =
      (opening? lexeme behind).map fun opened => (opened.1, opened.2.1) := by
  obtain ⟨htake, hhead⟩ := takeWhile_white_thinned hmore
  cases lexeme with
  | word name =>
    simp only [opening?, htake]
    cases Builtin.ofSpelling? name with
    | none => rfl
    | some builtin =>
      cases hdrop : behind.dropWhile Byte.isWhiteSpace with
      | nil =>
        rw [hdrop, List.head?_nil, List.head?_eq_none_iff] at hhead
        rw [hhead]
      | cons c rest =>
        rw [hdrop] at hhead
        obtain ⟨rest', hrest⟩ := List.head?_eq_some_iff.mp hhead
        rw [hrest]
        dsimp only
        split <;> rfl
  | _ => rfl

/-- A call is judged alike without the separators behind what it reads. -/
theorem exists_judge_thinned (builtin : Builtin) (line : Nat)
    (hstart : atLineStart before' = atLineStart before)
    (hundivided : UndividedUpTo (readLength inner) (lexemes before inner))
    (hthinned : List.Forall₂ Lexeme.Thinned (lexemes before inner) more') :
    ∃ behind', judge builtin line before' (textOf more') =
      (judge builtin line before inner).map (·.inFrontOf behind') := by
  have hpos : ∀ lexeme ∈ lexemes before inner, 0 < lexeme.text.length :=
    fun _ hlexeme => length_text_pos_of_mem_lexemes hlexeme
  have hwhole := textOf_lexemes before inner
  rw [judge_of_atLineStart hstart]
  unfold readLength at hundivided
  cases hsplit : splitArguments? 0 inner with
  | none =>
    rw [hsplit] at hundivided
    obtain ⟨back', htext, hhead⟩ := exists_append_of_undividedUpTo hthinned hpos hundivided
      (hwhole.trans (List.append_nil inner).symm) (Nat.le_refl _)
    rw [List.head?_nil, List.head?_eq_none_iff] at hhead
    rw [hhead, List.append_nil] at htext
    have hjudge : judge builtin line before inner = .error .unterminated := by
      rw [judge, hsplit]
    exact ⟨[], by rw [htext, hjudge]; rfl⟩
  | some list =>
    rw [hsplit] at hundivided
    obtain ⟨back', htext, hhead⟩ := exists_append_of_undividedUpTo hthinned hpos hundivided
      (hwhole.trans (closed_of_splitArguments? hsplit)) (Nat.le_refl _)
    obtain ⟨behind', rfl⟩ := List.head?_eq_some_iff.mp hhead
    exact ⟨behind', by rw [htext]; exact judge_exchange hsplit builtin line before behind'⟩

end Calls

/-! ## Texts that differ in some stretches -/

/-- Two texts are the same but for some stretches, which are listed from left to right. -/
def DiffersBy (changes : List (Bytes × Bytes)) (text text' : Bytes) : Prop :=
  ∃ fragments : List (Bytes × Bytes),
    fragments.flatMap Prod.fst = text ∧ fragments.flatMap Prod.snd = text' ∧
      fragments.filter (fun fragment => fragment.1 ≠ fragment.2) = changes

namespace DiffersBy

variable {changes changes' : List (Bytes × Bytes)} {text text' more more' : Bytes}

/-- A text differs by itself. -/
theorem single (text text' : Bytes) :
    DiffersBy ([(text, text')].filter fun fragment => fragment.1 ≠ fragment.2) text text' :=
  ⟨[(text, text')], by simp, by simp, rfl⟩

/-- No text differs by nothing. -/
theorem nil : DiffersBy [] [] [] := ⟨[], rfl, rfl, rfl⟩

/-- Texts differ one behind the other. -/
theorem append (hfront : DiffersBy changes text text') (hback : DiffersBy changes' more more') :
    DiffersBy (changes ++ changes') (text ++ more) (text' ++ more') := by
  obtain ⟨front, rfl, rfl, rfl⟩ := hfront
  obtain ⟨back, rfl, rfl, rfl⟩ := hback
  exact ⟨front ++ back, List.flatMap_append, List.flatMap_append, List.filter_append _ _⟩

/-- The same text in front makes no difference. -/
theorem same_append (text : Bytes) (hback : DiffersBy changes more more') :
    DiffersBy changes (text ++ more) (text ++ more') := by
  have hsame := (single text text).append hback
  rwa [List.filter_cons_of_neg (by simp), List.filter_nil, List.nil_append] at hsame

end DiffersBy

/-- The lexemes that differ in two lists, from left to right. -/
def changesOf (list list' : List Lexeme) : List (Bytes × Bytes) :=
  (list.zipWith (fun lexeme lexeme' => (lexeme.text, lexeme'.text)) list').filter
    fun fragment => fragment.1 ≠ fragment.2

/-- The first lexeme changes before the others. -/
theorem changesOf_cons (lexeme lexeme' : Lexeme) (more more' : List Lexeme) :
    changesOf (lexeme :: more) (lexeme' :: more') =
      [(lexeme.text, lexeme'.text)].filter (fun fragment => fragment.1 ≠ fragment.2) ++
        changesOf more more' := by
  rw [changesOf, List.zipWith_cons_cons, ← List.singleton_append, List.filter_append]
  rfl

/-- A lexeme that stays is no change. -/
theorem changesOf_cons_same (lexeme : Lexeme) (more more' : List Lexeme) :
    changesOf (lexeme :: more) (lexeme :: more') = changesOf more more' := by
  rw [changesOf_cons, List.filter_cons_of_neg (by simp), List.filter_nil, List.nil_append]

/-- Lexemes that stay are no change. -/
theorem changesOf_append_same (front back back' : List Lexeme) :
    changesOf (front ++ back) (front ++ back') = changesOf back back' := by
  induction front with
  | nil => rfl
  | cons lexeme front ih => rw [List.cons_append, List.cons_append, changesOf_cons_same, ih]

/-- The texts of two lists differ where the lexemes do. -/
theorem differsBy_textOf {list list' : List Lexeme}
    (hthinned : List.Forall₂ Lexeme.Thinned list list') :
    DiffersBy (changesOf list list') (textOf list) (textOf list') := by
  induction hthinned with
  | nil => exact .nil
  | cons hlexeme hmore ih =>
    rw [changesOf_cons, textOf_cons, textOf_cons]
    exact (DiffersBy.single _ _).append ih

/-! ## Outlines -/

/-- Two outlines report the same, and their texts differ in some stretches. -/
structure RenderedBut (changes : List (Bytes × Bytes)) (pieces pieces' : List Piece) : Prop where
  kept : keptInPieces pieces' = keptInPieces pieces
  expanded : expandedPieces pieces' = expandedPieces pieces
  site : ∀ site, (renderPieces site pieces').2 = (renderPieces site pieces).2
  text : ∀ site, DiffersBy changes (renderPieces site pieces).1 (renderPieces site pieces').1

namespace RenderedBut

variable {changes : List (Bytes × Bytes)} {pieces pieces' : List Piece}

/-- The empty outline is rendered the same. -/
theorem nil : RenderedBut [] [] [] := ⟨rfl, rfl, fun _ => rfl, fun _ => .nil⟩

/-- A text that is copied changes what is rendered. -/
theorem verbatim (text text' : Bytes) (hmore : RenderedBut changes pieces pieces') :
    RenderedBut ([(text, text')].filter (fun fragment => fragment.1 ≠ fragment.2) ++ changes)
      (.verbatim text :: pieces) (.verbatim text' :: pieces') where
  kept := hmore.kept
  expanded := hmore.expanded
  site := hmore.site
  text site := (DiffersBy.single text text').append (hmore.text site)

/-- A piece that is rendered and reported like another one. -/
theorem cons {piece piece' : Piece} (hkept : piece'.keptCalls = piece.keptCalls)
    (hexpanded : piece'.expanded = piece.expanded)
    (hrender : ∀ site, piece'.render site = piece.render site)
    (hmore : RenderedBut changes pieces pieces') :
    RenderedBut changes (piece :: pieces) (piece' :: pieces') where
  kept := by rw [keptInPieces, keptInPieces, hkept, hmore.kept]
  expanded := by rw [expandedPieces, expandedPieces, hexpanded, hmore.expanded]
  site site := by simp only [renderPieces, hrender, hmore.site]
  text site := by
    simp only [renderPieces, hrender]
    exact (hmore.text _).same_append _

end RenderedBut

section Outline

variable {before before' rest behind gap inner : Bytes} {b : UInt8} {lexeme : Lexeme}
  {others : List Lexeme} {builtin : Builtin}

/-- A call that is opened in front of a text is opened there without the separators, too. -/
theorem exists_opening_thinned (hopening : opening? lexeme behind = some (builtin, gap, inner))
    (hothers : List.Forall₂ Lexeme.Thinned (lexemes (lexeme.text.reverse ++ before) behind)
      others) :
    ∃ more', others = openingLexemes gap ++ more' ∧
      opening? lexeme (textOf others) = some (builtin, gap, textOf more') ∧
      List.Forall₂ Lexeme.Thinned
        (lexemes (Byte.openParen :: gap.reverse ++ lexeme.text.reverse ++ before) inner) more' := by
  obtain ⟨rfl, rfl, hgap⟩ := opening?_eq_some.mp hopening
  have hparen : nextLexeme (gap.reverse ++ (builtin.spelling.reverse ++ before)) Byte.openParen
      inner = (.mark Byte.openParen, inner) := rfl
  have hlexemes : lexemes (builtin.spelling.reverse ++ before) (gap ++ Byte.openParen :: inner) =
      openingLexemes gap ++
        lexemes (Byte.openParen :: gap.reverse ++ builtin.spelling.reverse ++ before) inner := by
    rw [lexemes_white_append _ _ hgap, lexemes_cons hparen, openingLexemes]
    simp [Lexeme.text]
  have hdivided : ∀ lexeme ∈ openingLexemes gap, lexeme.isDivided = false := by
    intro lexeme hlexeme
    simp only [openingLexemes, List.mem_append, List.mem_map, List.mem_cons, List.not_mem_nil,
      or_false] at hlexeme
    rcases hlexeme with ⟨c, -, rfl⟩ | rfl <;> rfl
  rw [Lexeme.text, hlexemes] at hothers
  obtain ⟨more', rfl, hmore⟩ := exists_eq_append_of_forall₂ hothers hdivided
  exact ⟨more', rfl, opening?_eq_some.mpr ⟨rfl, by simp, hgap⟩, hmore⟩

/-- A call reads no separators. -/
theorem ReadsUndivided.undividedUpTo (hnext : nextLexeme before b rest = (lexeme, behind))
    (hopening : opening? lexeme behind = some (builtin, gap, inner))
    (hreads : ReadsUndivided (lexemes before (b :: rest))) :
    UndividedUpTo (readLength inner)
      (lexemes (Byte.openParen :: gap.reverse ++ lexeme.text.reverse ++ before) inner) := by
  have hlexemes := lexemes_of_opening hnext hopening
  rw [lexemes_cons hnext] at hreads hlexemes
  have hread := hreads.1 (builtin, gap, inner) (by rw [textOf_lexemes]; exact hopening)
  rw [(List.cons.inj hlexemes).2] at hread
  have hundivided := hread.of_append
  rwa [textOf_openingLexemes, List.length_append, List.length_singleton,
    Nat.add_sub_cancel_left] at hundivided

/-- The arguments of a call stay as they are, and so do the lexemes up to its end. -/
theorem exists_behind_thinned {line : Nat} {list : ArgumentList} {more' : List Lexeme}
    (hjudge : judge builtin line
      (Byte.openParen :: gap.reverse ++ lexeme.text.reverse ++ before) inner = .ok list)
    (hundivided : UndividedUpTo list.inside.length
      (lexemes (Byte.openParen :: gap.reverse ++ lexeme.text.reverse ++ before) inner))
    (hinner : List.Forall₂ Lexeme.Thinned
      (lexemes (Byte.openParen :: gap.reverse ++ lexeme.text.reverse ++ before) inner) more') :
    ∃ front back',
      lexemes (Byte.openParen :: gap.reverse ++ lexeme.text.reverse ++ before) inner = front ++
        lexemes ((callTail gap list).reverse ++ lexeme.text.reverse ++ before) list.behind ∧
      more' = front ++ back' ∧ textOf more' = list.closed (textOf back') ∧
      List.Forall₂ Lexeme.Thinned
        (lexemes ((callTail gap list).reverse ++ lexeme.text.reverse ++ before) list.behind)
        back' := by
  obtain ⟨first, more, hcut, hfirst, hmore, -⟩ := exists_lexemes_of_judge hjudge hundivided
  have hinside := textOf_insideOf_eq_inside hfirst hmore
  have hbefore : Byte.closeParen :: list.inside.reverse ++
      (Byte.openParen :: gap.reverse ++ lexeme.text.reverse ++ before) =
        (callTail gap list).reverse ++ lexeme.text.reverse ++ before := by
    simp [callTail]
  have hpos : ∀ other ∈ lexemes (Byte.openParen :: gap.reverse ++ lexeme.text.reverse ++ before)
      inner, 0 < other.text.length := fun _ hother => length_text_pos_of_mem_lexemes hother
  rw [hbefore] at hcut
  rw [hcut] at hundivided hinner hpos
  have hdivided := hundivided.not_isDivided
    (fun other hother => hpos other (List.mem_append_left _ hother)) (by rw [hinside])
  obtain ⟨tail', rfl, htail⟩ := exists_eq_append_of_forall₂ hinner hdivided
  obtain ⟨close, back', hclose, hback, rfl⟩ := List.forall₂_cons_left_iff.mp htail
  obtain rfl := hclose.eq_of_number?_eq_none rfl
  refine ⟨insideOf first more ++ [.mark Byte.closeParen], back', by rw [hcut]; simp, by simp,
    ?_, hback⟩
  rw [textOf_append, textOf_cons, hinside]
  rfl

end Outline

/-- The outline of a text without some of its separators. -/
theorem renderedBut_outline (line : Nat) (before text : Bytes) :
    ∀ before' list', atLineStart before' = atLineStart before →
      List.Forall₂ Lexeme.Thinned (lexemes before text) list' →
      ReadsUndivided (lexemes before text) →
      RenderedBut (changesOf (lexemes before text) list') (outline line before text)
        (outline line before' (textOf list')) := by
  induction line, before, text using outline_induction with
  | nil line before =>
    intro before' list' _ hthinned _
    rw [lexemes_nil] at hthinned ⊢
    cases hthinned
    rw [textOf_nil, outline, outline]
    exact .nil
  | @copied line before b rest lexeme behind hnext hopening ih =>
    intro before' list' hstart hthinned hreads
    rw [lexemes_cons hnext] at hthinned hreads ⊢
    obtain ⟨lexeme', others, hlexeme, hothers, rfl⟩ := List.forall₂_cons_left_iff.mp hthinned
    obtain ⟨rest', htext, hnext'⟩ := nextLexeme_thinned hstart hnext hlexeme hothers
    have hopening' : opening? lexeme' (textOf others) = none := by
      cases hlexeme with
      | same =>
        have hsame := opening?_thinned lexeme hothers
        rwa [hopening, Option.map_none, Option.map_eq_none_iff] at hsame
      | number => rfl
    have hmore := ih _ _ (atLineStart_thinned hstart hnext hlexeme) hothers hreads.2
    rw [textOf_cons, htext, outline_copied hnext hopening, outline_copied hnext' hopening',
      hlexeme.newlines_eq, changesOf_cons]
    exact hmore.verbatim lexeme.text lexeme'.text
  | @kept line before b rest lexeme behind builtin gap inner reason hnext hopening hjudge ih =>
    intro before' list' hstart hthinned hreads
    have hundivided := hreads.undividedUpTo hnext hopening
    rw [lexemes_cons hnext] at hthinned hreads ⊢
    obtain ⟨lexeme', others, hlexeme, hothers, rfl⟩ := List.forall₂_cons_left_iff.mp hthinned
    obtain rfl := hlexeme.eq_of_number?_eq_none (number?_of_opening hopening)
    obtain ⟨rest', htext, hnext'⟩ := nextLexeme_thinned hstart hnext hlexeme hothers
    obtain ⟨more', hmore', hopening', hinner⟩ := exists_opening_thinned hopening hothers
    obtain ⟨behind', hjudge'⟩ := exists_judge_thinned builtin (line + newlines gap)
      (atLineStart_append hstart _) hundivided hinner
    rw [hjudge] at hjudge'
    have hmore := ih _ _ (atLineStart_append hstart _) hothers hreads.2
    rw [textOf_cons, htext, outline_kept hnext hopening hjudge,
      outline_kept hnext' hopening' hjudge', changesOf_cons,
      List.filter_cons_of_neg (by simp), List.filter_nil, List.nil_append]
    exact hmore.cons rfl rfl fun _ => rfl
  | @expanded line before b rest lexeme behind builtin gap inner list hnext hopening hjudge
      hargument ih =>
    intro before' list' hstart hthinned hreads
    have hundivided := hreads.undividedUpTo hnext hopening
    rw [readLength, (split_of_judge hjudge).1] at hundivided
    rw [lexemes_cons hnext] at hthinned hreads ⊢
    obtain ⟨lexeme', others, hlexeme, hothers, rfl⟩ := List.forall₂_cons_left_iff.mp hthinned
    obtain rfl := hlexeme.eq_of_number?_eq_none (number?_of_opening hopening)
    obtain ⟨rest', htext, hnext'⟩ := nextLexeme_thinned hstart hnext hlexeme hothers
    obtain ⟨more', rfl, hopening', hinner⟩ := exists_opening_thinned hopening hothers
    obtain ⟨front, back', hcut, rfl, hclosed, hback⟩ :=
      exists_behind_thinned hjudge hundivided hinner
    -- Separators are deleted behind the list only, so the list is the same.
    have hjudge' : judge builtin (line + newlines gap)
        (Byte.openParen :: gap.reverse ++ lexeme'.text.reverse ++ before')
        (textOf (front ++ back')) = .ok (list.inFrontOf (textOf back')) := by
      rw [hclosed, judge_exchange (split_of_judge hjudge).1,
        judge_of_atLineStart (atLineStart_append hstart _), hjudge]
      rfl
    have hlexemes := lexemes_of_opening hnext hopening
    rw [lexemes_cons hnext, hcut] at hlexemes
    rw [(List.cons.inj hlexemes).2] at hreads ⊢
    have hbehind := ih _ _ (atLineStart_append hstart _) hback hreads.2.of_append.of_append
    rw [textOf_cons, htext, outline_expanded hnext hopening hjudge,
      outline_expanded hnext' hopening' hjudge', changesOf_cons_same, changesOf_append_same,
      changesOf_append_same]
    exact hbehind.cons rfl rfl fun _ => rfl

/-- A source without some of its digit separators is reported like the source, and its text is
that of the source without them, if no separator stands in what a call reads. -/
theorem normalize_thinned {session : Session} {source : Bytes} {list : List Lexeme}
    (hthinned : List.Forall₂ Lexeme.Thinned (lexemes [] source) list)
    (hreads : ReadsUndivided (lexemes [] source)) :
    (session.normalize (textOf list)).1.report = (session.normalize source).1.report ∧
      (session.normalize (textOf list)).2 = (session.normalize source).2 ∧
      DiffersBy (changesOf (lexemes [] source) list) (session.normalize source).1.text
        (session.normalize (textOf list)).1.text := by
  by_cases henabled : session.config.normalizeAtomics = true
  · have hrendered := renderedBut_outline 1 [] source [] list rfl hthinned hreads
    simp only [Session.normalize, henabled, if_true]
    refine ⟨?_, ?_, hrendered.text session.site⟩
    · rw [hrendered.expanded, hrendered.kept]
    · rw [hrendered.site]
  · have hdiffers := differsBy_textOf hthinned
    rw [textOf_lexemes] at hdiffers
    simp only [Session.normalize, if_neg henabled]
    exact ⟨trivial, trivial, hdiffers⟩

/-- A call between two numbers with digit separators. -/
def dividedNumbers : Bytes := ofString "1'0'0 __sync_fetch_and_add(p, 10); 2'0"

/-- The lexemes of the source, one number without its first separator. -/
def joinedNumbers : List Lexeme :=
  .number (ofString "10'0") :: (lexemes [] dividedNumbers).tail

/-- Two numbers lose a separator each, one of them in front of a call. -/
theorem normalize_joinedNumbers :
    List.Forall₂ Lexeme.Thinned (lexemes [] dividedNumbers) joinedNumbers ∧
      ReadsUndivided (lexemes [] dividedNumbers) ∧
      textOf joinedNumbers = ofString "10'0 __sync_fetch_and_add(p, 10); 2'0" ∧
      ((Session.normalize ⟨{}, 0⟩ (textOf joinedNumbers)).1.report =
          (Session.normalize ⟨{}, 0⟩ dividedNumbers).1.report ∧
        (Session.normalize ⟨{}, 0⟩ (textOf joinedNumbers)).2 =
          (Session.normalize ⟨{}, 0⟩ dividedNumbers).2 ∧
        DiffersBy (changesOf (lexemes [] dividedNumbers) joinedNumbers)
          (Session.normalize ⟨{}, 0⟩ dividedNumbers).1.text
          (Session.normalize ⟨{}, 0⟩ (textOf joinedNumbers)).1.text) := by
  obtain ⟨hreads, hhead, htext⟩ : ReadsUndivided (lexemes [] dividedNumbers) ∧
      lexemes [] dividedNumbers = .number (ofString "1'0'0") :: (lexemes [] dividedNumbers).tail ∧
      textOf joinedNumbers = ofString "10'0 __sync_fetch_and_add(p, 10); 2'0" := by
    decide +kernel
  have hthinned : List.Forall₂ Lexeme.Thinned (lexemes [] dividedNumbers) joinedNumbers := by
    rw [hhead]
    exact .cons (.number _ (.delete (.refl _))) (List.forall₂_same.mpr fun _ _ => .same _)
  exact ⟨hthinned, hreads, htext, normalize_thinned hthinned hreads⟩

/-- A call with a digit separator among its arguments. -/
def dividedArgument : Bytes := ofString "__sync_fetch_and_add(p, 1'000)"

/-- The separator opens a character literal that hides the closing parenthesis. -/
theorem report_dividedArgument :
    ∃ list, List.Forall₂ Lexeme.Thinned (lexemes [] dividedArgument) list ∧
      textOf list = ofString "__sync_fetch_and_add(p, 1000)" ∧
      (normalize {} dividedArgument).report.kept = [⟨1, .fetchAndOp .add, .unterminated⟩] ∧
      (normalize {} dividedArgument).report.expanded = [] ∧
      (normalize {} (textOf list)).report.kept = [] ∧
      (normalize {} (textOf list)).report.expanded = [.fetchAndOp .add] := by
  have hlexemes : lexemes [] dividedArgument =
      (lexemes [] dividedArgument).take 5 ++
        [.number (ofString "1'000"), .mark Byte.closeParen] := by
    decide +kernel
  refine ⟨(lexemes [] dividedArgument).take 5 ++
    [.number (ofString "1000"), .mark Byte.closeParen], ?_, by decide +kernel⟩
  conv_lhs => rw [hlexemes]
  refine List.rel_append (List.forall₂_same.mpr fun _ _ => .same _) ?_
  exact .cons (.number _ (.delete (.refl _))) (.cons (.same _) .nil)

end PlainSync.Source
