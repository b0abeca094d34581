import PlainSync.Proofs.Source.ClosedUnits
import PlainSync.Proofs.Source.SealedFronts

/-!
# A comment in the place of a blank

A call is judged alike with a comment in its argument list in the place of a blank that is read on
its own there, unless the comment makes an argument of a list of white space.
-/

namespace PlainSync.Source

open Bytes

/-- Decide about a call by its argument list and the line of the first directive in it. -/
theorem judge_eq (builtin : Builtin) (line : Nat) (before text : Bytes) :
    judge builtin line before text =
      match splitArguments? 0 text with
      | none => .error .unterminated
      | some list =>
        match directiveLines? before text list.inside.length with
        | some lines => .error (.directive (line + lines))
        | none =>
          if list.arguments.length < builtin.operandCount then
            .error (.arity builtin.operandCount list.arguments.length)
          else .ok list := by
  unfold judge directiveLines?
  cases splitArguments? 0 text with
  | none => rfl
  | some list =>
    dsimp only
    cases findDirective? before text list.inside.length <;> rfl

/-- Arguments of which one has a comment in the place of a blank, if it stands among them. The blank
stands at the given index of the text that has the arguments with a comma behind each. -/
inductive OneCommented (b : UInt8) (body : Bytes) : Nat → List Bytes → List Bytes → Prop
  | same {index : Nat} {arguments : List Bytes} : OneCommented b body index arguments arguments
  | here {front behind : Bytes} {more : List Bytes}
    (hhash : (behind.dropWhile Byte.isBlank).head? ≠ some Byte.hash) :
    OneCommented b body front.length ((front ++ b :: behind) :: more)
      ((front ++ (blockComment body ++ behind)) :: more)
  | later {index : Nat} {argument : Bytes} {more more' : List Bytes}
    (hmore : OneCommented b body index more more') :
    OneCommented b body (argument.length + 1 + index) (argument :: more) (argument :: more')

section OneCommented

variable {b : UInt8} {body : Bytes} {index : Nat} {arguments arguments' : List Bytes}

/-- The first arguments have the comment or are the same. -/
theorem OneCommented.take (hone : OneCommented b body index arguments arguments') (count : Nat) :
    OneCommented b body index (arguments.take count) (arguments'.take count) := by
  induction hone generalizing count with
  | same => exact .same
  | here hhash =>
    cases count with
    | zero => exact .same
    | succ count => exact .here hhash
  | later _ ih =>
    cases count with
    | zero => exact .same
    | succ count => exact .later (ih count)

/-- Arguments in front move the comment back. -/
theorem OneCommented.after (hone : OneCommented b body index arguments arguments')
    (passed : List Bytes) :
    OneCommented b body ((passed.flatMap (· ++ [Byte.comma])).length + index)
      (passed ++ arguments) (passed ++ arguments') := by
  induction passed with
  | nil => rwa [List.flatMap_nil, List.length_nil, Nat.zero_add]
  | cons argument passed ih =>
    have hindex : ((argument :: passed).flatMap (· ++ [Byte.comma])).length + index =
        argument.length + 1 + ((passed.flatMap (· ++ [Byte.comma])).length + index) := by
      rw [List.flatMap_cons, List.length_append, List.length_append, List.length_singleton,
        Nat.add_assoc]
    rw [hindex]
    exact .later ih

end OneCommented

/-- Both calls are kept for one reason, or both can be expanded: the blank stands behind the
argument list, or in it. -/
inductive JudgedInStep (builtin : Builtin) (front : Bytes) (b : UInt8) (body behind : Bytes) :
    Except KeepReason ArgumentList → Except KeepReason ArgumentList → Prop
  | error (reason : KeepReason) :
    JudgedInStep builtin front b body behind (.error reason) (.error reason)
  | behind {list : ArgumentList} {back : Bytes}
    (hfront : front = list.inside ++ Byte.closeParen :: back)
    (hbehind : list.behind = back ++ b :: behind) :
    JudgedInStep builtin front b body behind (.ok list)
      (.ok (list.inFrontOf (back ++ (blockComment body ++ behind))))
  | inside {list list' : ArgumentList}
    (hoperands : OneCommented b body front.length (list.arguments.take builtin.operandCount)
      (list'.arguments.take builtin.operandCount))
    (hlines : newlines list'.inside = newlines list.inside) (hbehind : list'.behind = list.behind) :
    JudgedInStep builtin front b body behind (.ok list) (.ok list')

section Judge

variable {b : UInt8} {body front behind : Bytes}

/-- A comment on one line has no line end. -/
theorem newlines_blockComment (hline : Byte.newline ∉ body) : newlines (blockComment body) = 0 := by
  rw [newlines, List.count_eq_zero]
  simp only [blockComment, List.mem_cons, List.mem_append, hline, List.not_mem_nil, or_false,
    false_or, not_or]
  decide

/-- A blank is no line end. -/
theorem newlines_blank (hb : Byte.isBlank b) (text : Bytes) :
    newlines (b :: text) = newlines text :=
  newlines_cons_of_ne (isBlank_ne_newline hb) text

/-- A blank goes into its argument. -/
theorem splitArguments?_blank (hb : Byte.isBlank b) (depth : Nat) :
    splitArguments? depth (b :: behind) = (splitArguments? depth behind).map (·.prepend [b]) := by
  simp only [Byte.isBlank, Bool.or_eq_true, decide_eq_true_eq] at hb
  rcases hb with rfl | rfl <;> exact splitArguments?_cons rfl

/-- The directives behind a comment in the place of a blank stand on the same lines. -/
theorem directiveLines?_comment (hb : Byte.isBlank b) (hbody : KeepsOpen body)
    (hline : Byte.newline ∉ body) (hhash : (behind.dropWhile Byte.isBlank).head? ≠ some Byte.hash)
    (before : Bytes) (span : Nat) :
    directiveLines? before (blockComment body ++ behind) ((blockComment body).length + span) =
      directiveLines? before (b :: behind) (span + 1) := by
  have hnone := splitTrivia?_of_standsAlone (standsAlone_of_isBlank hb) behind
  have hmark : b ≠ Byte.hash := by
    rintro rfl
    exact absurd hb (by decide)
  rw [directiveLines?_trivia (splitTrivia?_blockComment hbody behind), directiveLines?_cons hnone,
    if_neg fun hsame => hmark hsame.1, newlines_blockComment hline, newlines_blank hb []]
  unfold directiveLines?
  have halike : StartsAlike (b :: before) ((blockComment body).reverse ++ before) behind :=
    .inr hhash
  rw [findDirective?_of_startsAlike halike]
  rfl

/-- An argument list that is over in front of the blank. -/
theorem judge_closed {builtin : Builtin} {line : Nat} {before : Bytes} {list : ArgumentList}
    (hsplit : splitArguments? 0 (front ++ b :: behind) = some list)
    (hless : list.inside.length < front.length) :
    JudgedInStep builtin front b body behind (judge builtin line before (front ++ b :: behind))
      (judge builtin line before (front ++ (blockComment body ++ behind))) := by
  have hclosed : list.inside ++ [Byte.closeParen] ++ list.behind = front ++ b :: behind := by
    rw [← ArgumentList.closed_eq_append, ← closed_of_splitArguments? hsplit]
  rcases append_eq_append_cons hclosed with ⟨back, rfl, hback⟩ | ⟨back, hback⟩
  · have hjudge := judge_exchange hsplit builtin line before (back ++ (blockComment body ++ behind))
    rw [ArgumentList.closed_eq_append, ← List.append_assoc] at hjudge
    rw [hjudge]
    cases hcall : judge builtin line before
        (list.inside ++ [Byte.closeParen] ++ back ++ b :: behind) with
    | error reason => exact .error reason
    | ok found =>
      obtain rfl : list = found := Option.some.inj (hsplit.symm.trans (split_of_judge hcall).1)
      exact .behind (by simp) hback
  · have hlength := congrArg List.length hback
    simp only [List.length_append, List.length_cons, List.length_nil] at hlength
    omega

/-! An argument list that goes on at the blank, up to which it is read as `passed` and `current`. -/

section Inside

variable {depth : Nat} {passed : List Bytes} {current : Bytes} (tail : ArgumentList)

/-- What stands inside a list from its start to a blank and beyond. -/
theorem inside_goesOn (hgoes : GoesOn 0 front depth passed current) (unit : Bytes) :
    ((tail.prepend unit).after passed current).inside = front ++ (unit ++ tail.inside) := by
  rw [ArgumentList.inside_after, ArgumentList.inside_prepend, ← hgoes.front_eq]

/-- A comment is no white space, so it stands in an argument. -/
theorem arguments_comment (body : Bytes) (hgoes : GoesOn 0 front depth passed current) :
    ((tail.prepend (blockComment body)).after passed current).arguments =
      passed ++ (current ++ (blockComment body ++ tail.first)) :: tail.more := by
  have hslash : ¬ Byte.isWhiteSpace Byte.slash := by decide
  rw [ArgumentList.arguments_eq_ite, if_neg, ArgumentList.stretches_after]
  · rfl
  · rintro ⟨-, hall⟩
    rw [inside_goesOn tail hgoes] at hall
    exact hslash (List.all_eq_true.mp hall _ (by simp [blockComment]))

/-- A blank stands in an argument unless there is nothing but white space. -/
theorem arguments_blank (b : UInt8) (hgoes : GoesOn 0 front depth passed current) :
    ((tail.prepend [b]).after passed current).arguments = [] ∧ front.all Byte.isWhiteSpace ∨
      ((tail.prepend [b]).after passed current).arguments =
        passed ++ (current ++ b :: tail.first) :: tail.more := by
  rw [ArgumentList.arguments_eq_ite, ArgumentList.stretches_after]
  split
  · next hblank =>
    rw [inside_goesOn tail hgoes, List.all_append, Bool.and_eq_true] at hblank
    exact .inl ⟨rfl, hblank.2.1⟩
  · exact .inr rfl

/-- A comment in place of a blank leaves the line of a directive. -/
theorem directiveLines?_goesOn (hb : Byte.isBlank b) (hbody : KeepsOpen body)
    (hline : Byte.newline ∉ body) (hhash : (behind.dropWhile Byte.isBlank).head? ≠ some Byte.hash)
    (hsealed : Sealed front) (hgoes : GoesOn 0 front depth passed current) (before : Bytes) :
    directiveLines? before (front ++ (blockComment body ++ behind))
        ((tail.prepend (blockComment body)).after passed current).inside.length =
      directiveLines? before (front ++ b :: behind)
        ((tail.prepend [b]).after passed current).inside.length := by
  rw [inside_goesOn tail hgoes, inside_goesOn tail hgoes, List.length_append, List.length_append,
    List.length_append, List.length_append, List.length_singleton, Nat.add_comm 1,
    hsealed.directiveLines?_append, hsealed.directiveLines?_append,
    directiveLines?_comment hb hbody hline hhash]

/-- A comment in place of a blank leaves the number of lines. -/
theorem newlines_goesOn (hb : Byte.isBlank b) (hline : Byte.newline ∉ body)
    (hgoes : GoesOn 0 front depth passed current) :
    newlines ((tail.prepend (blockComment body)).after passed current).inside =
      newlines ((tail.prepend [b]).after passed current).inside := by
  rw [inside_goesOn tail hgoes, inside_goesOn tail hgoes, newlines_append, newlines_append,
    newlines_append, newlines_append, newlines_blockComment hline, newlines_blank hb []]
  rfl

/-- What a text begins with, blanks aside, is no hash mark if the longer text begins with none. -/
theorem hash_of_append {text more : Bytes}
    (hhash : ((text ++ more).dropWhile Byte.isBlank).head? ≠ some Byte.hash) :
    (text.dropWhile Byte.isBlank).head? ≠ some Byte.hash := by
  cases hrest : text.dropWhile Byte.isBlank with
  | nil => exact nofun
  | cons c rest =>
    have hne : text.dropWhile Byte.isBlank ≠ [] := by
      rw [hrest]
      exact List.cons_ne_nil c rest
    rwa [List.dropWhile_append, if_neg (by simpa using hne), hrest] at hhash

/-- A comment in place of a blank stands in one argument. -/
theorem oneCommented_goesOn (b : UInt8) (body : Bytes)
    (hhash : (behind.dropWhile Byte.isBlank).head? ≠ some Byte.hash)
    (hgoes : GoesOn 0 front depth passed current)
    (htail : splitArguments? depth behind = some tail) :
    OneCommented b body front.length (passed ++ (current ++ b :: tail.first) :: tail.more)
      (passed ++ (current ++ (blockComment body ++ tail.first)) :: tail.more) := by
  rw [closed_of_splitArguments? htail, ArgumentList.closed, ArgumentList.inside, List.append_assoc]
    at hhash
  rw [hgoes.front_eq, List.length_append]
  exact (OneCommented.here (hash_of_append hhash)).after passed

end Inside

/-- An argument list that goes on at the blank is judged alike, unless it is empty without the
comment and the call needs an argument. -/
theorem judge_open (hb : Byte.isBlank b) (hbody : KeepsOpen body) (hline : Byte.newline ∉ body)
    (hhash : (behind.dropWhile Byte.isBlank).head? ≠ some Byte.hash)
    {builtin : Builtin} {line depth : Nat} {before current : Bytes} {passed : List Bytes}
    (hsealed : Sealed front) (hgoes : GoesOn 0 front depth passed current)
    (hempty : ∀ expected, judge builtin line before (front ++ b :: behind) =
      .error (.arity expected 0) → ¬ front.all Byte.isWhiteSpace) :
    JudgedInStep builtin front b body behind (judge builtin line before (front ++ b :: behind))
      (judge builtin line before (front ++ (blockComment body ++ behind))) := by
  have hcomment := splitTrivia?_blockComment hbody behind
  rw [judge_eq, hgoes.split_eq, splitArguments?_blank hb] at hempty ⊢
  rw [judge_eq, hgoes.split_eq, splitArguments?_trivia hcomment]
  cases htail : splitArguments? depth behind with
  | none => exact .error _
  | some tail =>
    have hlines := directiveLines?_goesOn tail hb hbody hline hhash hsealed hgoes before
    have hnewlines := newlines_goesOn tail hb hline hgoes
    have hone := oneCommented_goesOn tail b body hhash hgoes htail
    have hcomments := arguments_comment tail body hgoes
    rw [htail] at hempty
    simp only [Option.map_some, hlines] at hempty ⊢
    cases hdirective : directiveLines? before (front ++ b :: behind) _ with
    | some lines => exact .error _
    | none =>
      rw [hdirective] at hempty
      dsimp only at hempty ⊢
      rcases arguments_blank tail b hgoes with ⟨hnil, hwhite⟩ | harguments
      · rw [hnil, List.length_nil] at hempty
        have hcount : builtin.operandCount = 0 := by
          by_contra hne
          rw [if_pos (Nat.pos_of_ne_zero hne)] at hempty
          exact hempty _ rfl hwhite
        rw [hcount, if_neg (Nat.not_lt_zero _), if_neg (Nat.not_lt_zero _)]
        refine .inside ?_ hnewlines ?_
        · rw [hcount, List.take_zero, List.take_zero]
          exact .same
        · simp [ArgumentList.prepend]
      · have hlength : ((tail.prepend (blockComment body)).after passed current).arguments.length =
            ((tail.prepend [b]).after passed current).arguments.length := by
          rw [hcomments, harguments]
          simp
        rw [hlength]
        split
        · exact .error _
        · refine .inside ?_ hnewlines ?_
          · rw [hcomments, harguments]
            exact hone.take builtin.operandCount
          · simp [ArgumentList.prepend]

/-- A call is judged alike with a comment in the place of a blank that is read on its own, unless
the blank stands in an empty list and the call needs an argument. -/
theorem judge_comment (hb : Byte.isBlank b) (hbody : KeepsOpen body) (hline : Byte.newline ∉ body)
    (hhash : (behind.dropWhile Byte.isBlank).head? ≠ some Byte.hash)
    {builtin : Builtin} {line start : Nat} {before : Bytes}
    (hunits : ∀ unit ∈ placeUnits start (listUnits 0 (front ++ b :: behind)),
      unit.LeavesAlone (start + front.length))
    (hempty : ∀ expected, judge builtin line before (front ++ b :: behind) =
      .error (.arity expected 0) → ¬ front.all Byte.isWhiteSpace) :
    JudgedInStep builtin front b body behind (judge builtin line before (front ++ b :: behind))
      (judge builtin line before (front ++ (blockComment body ++ behind))) := by
  by_cases hclosed : ∃ list, splitArguments? 0 (front ++ b :: behind) = some list ∧
      list.inside.length < front.length
  · obtain ⟨list, hsplit, hless⟩ := hclosed
    exact judge_closed hsplit hless
  · have hopen : ∀ list, splitArguments? 0 (front ++ b :: behind) = some list →
        front.length ≤ list.inside.length := fun list hsplit =>
      Nat.le_of_not_lt fun hless => hclosed ⟨list, hsplit, hless⟩
    have hsealed := sealed_of_listUnits hb rfl hunits hopen
    obtain ⟨depth, passed, current, hgoes⟩ := hsealed.goesOn hopen
    exact judge_open hb hbody hline hhash hsealed hgoes hempty

end Judge

end PlainSync.Source
