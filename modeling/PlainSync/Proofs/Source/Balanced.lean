import PlainSync.Proofs.Source.ClosedUnits

/-!
# Balanced arguments

Text whose comments and literals are closed and whose brackets are in order belongs to one argument,
whatever stands behind it. So a list of such arguments is cut into them again. A comma separates
arguments unless it stands in a group, a comment or a literal.
-/

namespace PlainSync.Source

/-- A byte that has no meaning for an argument list on its own. -/
def isOrdinary (b : UInt8) : Bool :=
  !(Byte.opensGroup b || Byte.closesGroup b || b = Byte.comma || b = Byte.doubleQuote ||
    b = Byte.quote || b = Byte.slash)

/-- Text that can be an argument. The text of a group may also have commas of its own. Brackets
of the three kinds open and close groups without being matched against each other. -/
inductive Balanced : (inGroup : Bool) → Bytes → Prop
  | nil {inGroup : Bool} : Balanced inGroup []
  | ordinary {inGroup : Bool} {b : UInt8} {text : Bytes} (hb : isOrdinary b)
    (htext : Balanced inGroup text) : Balanced inGroup (b :: text)
  | comma {text : Bytes} (htext : Balanced true text) : Balanced true (Byte.comma :: text)
  | comment {inGroup : Bool} {body text : Bytes} (hbody : KeepsOpen body)
    (htext : Balanced inGroup text) : Balanced inGroup (blockComment body ++ text)
  | lineComment {inGroup : Bool} {body text : Bytes} (hbody : Byte.newline ∉ body)
    (htext : Balanced inGroup text) :
    Balanced inGroup (Byte.slash :: Byte.slash :: (body ++ Byte.newline :: text))
  | literal {inGroup : Bool} {mark : UInt8} {body text : Bytes}
    (hmark : mark = Byte.doubleQuote ∨ mark = Byte.quote) (hbody : LiteralBody mark body)
    (htext : Balanced inGroup text) : Balanced inGroup (mark :: (body ++ mark :: text))
  | group {inGroup : Bool} {opening closing : UInt8} {inside text : Bytes}
    (hopening : Byte.opensGroup opening) (hclosing : Byte.closesGroup closing)
    (hinside : Balanced true inside) (htext : Balanced inGroup text) :
    Balanced inGroup (opening :: (inside ++ closing :: text))

section Steps

variable {b : UInt8} {depth : Nat}

/-- No comment or literal begins with a bracket. -/
theorem splitTrivia?_of_bracket (hb : Byte.opensGroup b ∨ Byte.closesGroup b) (rest : Bytes) :
    splitTrivia? (b :: rest) = none := by
  simp only [Byte.opensGroup, Byte.closesGroup, Bool.or_eq_true, decide_eq_true_eq] at hb
  rcases hb with ((rfl | rfl) | rfl) | ((rfl | rfl) | rfl) <;> rfl

/-- An ordinary byte belongs to its argument. -/
theorem splitArguments?_ordinary (hb : isOrdinary b) (rest : Bytes) :
    splitArguments? depth (b :: rest) = (splitArguments? depth rest).map (·.prepend [b]) := by
  simp only [isOrdinary, Bool.not_eq_true', Bool.or_eq_false_iff, decide_eq_false_iff_not] at hb
  obtain ⟨⟨⟨⟨⟨hopens, hcloses⟩, hcomma⟩, hdouble⟩, hquote⟩, hslash⟩ := hb
  have htrivia : splitTrivia? (b :: rest) = none := by
    simp only [splitTrivia?, hslash, hdouble, hquote, or_self, if_false]
  have hparen : b ≠ Byte.closeParen := by
    rintro rfl
    exact absurd hcloses (by decide)
  rw [splitArguments?_cons htrivia]
  simp only [hparen, hcomma, false_and, if_false, hopens, hcloses, Bool.false_eq_true]

/-- A comma in a group belongs to its argument. -/
theorem splitArguments?_comma_inGroup (hdepth : depth ≠ 0) (rest : Bytes) :
    splitArguments? depth (Byte.comma :: rest) =
      (splitArguments? depth rest).map (·.prepend [Byte.comma]) := by
  have htrivia : splitTrivia? (Byte.comma :: rest) = none := rfl
  rw [splitArguments?_cons htrivia, if_neg fun hclose => hdepth hclose.2,
    if_neg fun hcomma => hdepth hcomma.2, if_neg (by decide), if_neg (by decide)]

/-- An opening bracket opens a group. -/
theorem splitArguments?_opening (hopening : Byte.opensGroup b) (rest : Bytes) :
    splitArguments? depth (b :: rest) =
      (splitArguments? (depth + 1) rest).map (·.prepend [b]) := by
  have hclose : ¬ (b = Byte.closeParen ∧ depth = 0) := by
    rintro ⟨rfl, -⟩
    exact absurd hopening (by decide)
  have hcomma : ¬ (b = Byte.comma ∧ depth = 0) := by
    rintro ⟨rfl, -⟩
    exact absurd hopening (by decide)
  rw [splitArguments?_cons (splitTrivia?_of_bracket (.inl hopening) rest), if_neg hclose,
    if_neg hcomma, if_pos hopening]

/-- A closing bracket closes the innermost group. -/
theorem splitArguments?_closing (hclosing : Byte.closesGroup b) (rest : Bytes) :
    splitArguments? (depth + 1) (b :: rest) =
      (splitArguments? depth rest).map (·.prepend [b]) := by
  have hopens : ¬ Byte.opensGroup b := by
    intro hopens
    simp only [Byte.opensGroup, Bool.or_eq_true, decide_eq_true_eq] at hopens
    rcases hopens with (rfl | rfl) | rfl <;> exact absurd hclosing (by decide)
  rw [splitArguments?_cons (splitTrivia?_of_bracket (.inr hclosing) rest),
    if_neg fun hclose => Nat.succ_ne_zero depth hclose.2,
    if_neg fun hcomma => Nat.succ_ne_zero depth hcomma.2, if_neg hopens, if_pos hclosing,
    Nat.add_sub_cancel]

end Steps

/-- Balanced text belongs to the argument that it begins. -/
theorem Balanced.splitArguments?_append {inGroup : Bool} {text : Bytes}
    (hbalanced : Balanced inGroup text) {depth : Nat} (hdepth : inGroup = true → depth ≠ 0)
    (tail : Bytes) :
    splitArguments? depth (text ++ tail) =
      (splitArguments? depth tail).map (·.prepend text) := by
  induction hbalanced generalizing depth tail with
  | nil => exact (map_prepend_nil _).symm
  | @ordinary _ b text hb _ ih =>
    rw [List.cons_append, splitArguments?_ordinary hb, ih hdepth, map_prepend_prepend]
    rfl
  | comma _ ih =>
    rw [List.cons_append, splitArguments?_comma_inGroup (hdepth rfl), ih hdepth,
      map_prepend_prepend]
    rfl
  | @comment _ body text hbody _ ih =>
    rw [List.append_assoc, splitArguments?_trivia (splitTrivia?_blockComment hbody _), ih hdepth,
      map_prepend_prepend]
  | @lineComment _ body text hbody _ ih =>
    have htrivia := splitTrivia?_lineComment_newline hbody (text ++ tail)
    rw [List.cons_append, List.cons_append, List.append_assoc, List.cons_append,
      splitArguments?_trivia htrivia, splitArguments?_ordinary (by decide), ih hdepth,
      map_prepend_prepend, map_prepend_prepend]
    simp
  | @literal _ mark body text hmark hbody _ ih =>
    have htrivia := splitTrivia?_literal hmark hbody (text ++ tail)
    rw [List.cons_append, List.append_assoc, List.cons_append, splitArguments?_trivia htrivia,
      ih hdepth, map_prepend_prepend]
    simp
  | @group _ opening closing inside text hopening hclosing _ _ ihInside ih =>
    rw [List.cons_append, List.append_assoc, List.cons_append, splitArguments?_opening hopening,
      ihInside fun _ => Nat.succ_ne_zero depth, splitArguments?_closing hclosing, ih hdepth,
      map_prepend_prepend, map_prepend_prepend, map_prepend_prepend]
    simp

/-- Balanced arguments with commas between them are cut into these arguments at the parenthesis
behind them. -/
theorem splitArguments?_of_balanced {first : Bytes} {more : List Bytes}
    (hfirst : Balanced false first) (hmore : ∀ argument ∈ more, Balanced false argument)
    (behind : Bytes) :
    splitArguments? 0
        (first ++ (more.flatMap (Byte.comma :: ·) ++ Byte.closeParen :: behind)) =
      some ⟨first, more, behind⟩ := by
  induction more generalizing first with
  | nil =>
    have hclose : splitArguments? 0 (Byte.closeParen :: behind) = some ⟨[], [], behind⟩ := by
      have htrivia : splitTrivia? (Byte.closeParen :: behind) = none := rfl
      rw [splitArguments?_cons htrivia, if_pos ⟨rfl, rfl⟩]
    rw [List.flatMap_nil, List.nil_append, hfirst.splitArguments?_append nofun, hclose]
    simp [ArgumentList.prepend]
  | cons second more ih =>
    obtain ⟨hsecond, hothers⟩ := List.forall_mem_cons.mp hmore
    have hseparate (rest : Bytes) : splitArguments? 0 (Byte.comma :: rest) =
        (splitArguments? 0 rest).map (·.separate) := by
      have htrivia : splitTrivia? (Byte.comma :: rest) = none := rfl
      rw [splitArguments?_cons htrivia, if_neg (by decide), if_pos ⟨rfl, rfl⟩]
    rw [List.flatMap_cons, List.append_assoc, hfirst.splitArguments?_append nofun,
      List.cons_append, hseparate, ih hsecond hothers]
    simp [ArgumentList.prepend, ArgumentList.separate]

end PlainSync.Source
