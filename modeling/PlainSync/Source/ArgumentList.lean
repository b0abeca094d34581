import PlainSync.Source.Trivia

/-!
# Argument lists

The text between the parentheses of a call, cut at its outer commas. Brackets of the three
kinds open and close groups without being matched against each other, and commas inside
comments, literals and groups do not separate.
-/

namespace PlainSync.Source

/-- What stands between the parentheses of a call and behind them: one stretch, and one more
for every outer comma. -/
structure ArgumentList where
  first : Bytes
  more : List Bytes
  behind : Bytes
  deriving DecidableEq, Repr

namespace ArgumentList

/-- Put a text in front of the first stretch. -/
def prepend (text : Bytes) (list : ArgumentList) : ArgumentList :=
  { list with first := text ++ list.first }

/-- Begin a new stretch in front of the others. -/
def separate (list : ArgumentList) : ArgumentList :=
  { list with first := [], more := list.first :: list.more }

/-- The text between the parentheses. -/
def inside (list : ArgumentList) : Bytes :=
  list.first ++ list.more.flatMap (Byte.comma :: ·)

/-- The arguments, untrimmed. A single stretch of white space is no argument. -/
def arguments (list : ArgumentList) : List Bytes :=
  if list.more.isEmpty && list.first.all Byte.isWhiteSpace then []
  else list.first :: list.more

/-- Text in front of the first argument stands inside the parentheses. -/
@[simp]
theorem inside_prepend (text : Bytes) (list : ArgumentList) :
    (list.prepend text).inside = text ++ list.inside := by
  simp [inside, prepend]

/-- A comma in front of an argument list stands inside the parentheses. -/
@[simp]
theorem inside_separate (list : ArgumentList) :
    list.separate.inside = Byte.comma :: list.inside := by
  simp [inside, separate]

/-- Text in front of the first argument leaves what stands behind the list. -/
@[simp]
theorem behind_prepend (text : Bytes) (list : ArgumentList) :
    (list.prepend text).behind = list.behind := rfl

/-- A comma in front leaves what stands behind the list. -/
@[simp]
theorem behind_separate (list : ArgumentList) : list.separate.behind = list.behind := rfl

end ArgumentList

/-- Read an argument list behind its opening parenthesis, `depth` groups deep. There is none
if its closing parenthesis is missing. -/
def splitArguments? (depth : Nat) (text : Bytes) : Option ArgumentList :=
  match _trivia : splitTrivia? text with
  | some (unit, behind) => (splitArguments? depth behind).map (·.prepend unit)
  | none =>
    match text with
    | [] => none
    | b :: rest =>
      if b = Byte.closeParen ∧ depth = 0 then some ⟨[], [], rest⟩
      else if b = Byte.comma ∧ depth = 0 then (splitArguments? depth rest).map (·.separate)
      else if Byte.opensGroup b then (splitArguments? (depth + 1) rest).map (·.prepend [b])
      else if Byte.closesGroup b then (splitArguments? (depth - 1) rest).map (·.prepend [b])
      else (splitArguments? depth rest).map (·.prepend [b])
termination_by text.length
decreasing_by
  · exact length_lt_of_splitTrivia? _trivia
  all_goals simp

/-- An argument list, its closing parenthesis and what stands behind make up the text. -/
theorem append_of_splitArguments? {depth : Nat} {text : Bytes} {list : ArgumentList}
    (split : splitArguments? depth text = some list) :
    list.inside ++ Byte.closeParen :: list.behind = text := by
  induction depth, text using splitArguments?.induct generalizing list with
  | case1 depth text unit behind trivia ih =>
    rw [splitArguments?] at split
    split at split
    · rename_i unit' behind' trivia'
      rw [trivia'] at trivia
      simp only [Option.some.injEq, Prod.mk.injEq] at trivia
      obtain ⟨rfl, rfl⟩ := trivia
      obtain ⟨tail, found, rfl⟩ := Option.map_eq_some_iff.mp split
      have whole := append_of_splitTrivia? trivia'
      rw [ArgumentList.inside_prepend, ArgumentList.behind_prepend, List.append_assoc,
        ih found, whole]
    · simp_all
  | case2 depth trivia =>
    rw [splitArguments?] at split
    split at split <;> simp_all
  | case3 depth b rest trivia closes =>
    rw [splitArguments?] at split
    split at split
    · simp_all
    · simp only [closes, and_self, if_true, Option.some.injEq] at split
      subst split
      simp [ArgumentList.inside, closes.1]
  | case4 depth b rest trivia notClosing separates ih =>
    rw [splitArguments?] at split
    split at split
    · simp_all
    · simp only [if_neg notClosing, if_pos separates] at split
      obtain ⟨tail, found, rfl⟩ := Option.map_eq_some_iff.mp split
      simp [ih found, separates.1]
  | case5 depth b rest trivia notClosing separates opens ih =>
    rw [splitArguments?] at split
    split at split
    · simp_all
    · simp only [if_neg notClosing, if_neg separates, if_pos opens] at split
      obtain ⟨tail, found, rfl⟩ := Option.map_eq_some_iff.mp split
      simp [ih found]
  | case6 depth b rest trivia notClosing separates opens closes ih =>
    rw [splitArguments?] at split
    split at split
    · simp_all
    · simp only [if_neg notClosing, if_neg separates, if_neg opens, if_pos closes] at split
      obtain ⟨tail, found, rfl⟩ := Option.map_eq_some_iff.mp split
      simp [ih found]
  | case7 depth b rest trivia notClosing separates opens closes ih =>
    rw [splitArguments?] at split
    split at split
    · simp_all
    · simp only [if_neg notClosing, if_neg separates, if_neg opens, if_neg closes] at split
      obtain ⟨tail, found, rfl⟩ := Option.map_eq_some_iff.mp split
      simp [ih found]

end PlainSync.Source
