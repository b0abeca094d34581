import PlainSync.Json.Reader
import PlainSync.Proofs.Json.Spelling

/-!
# Reading what is spelled

The tokens of a value, and what the reader makes of them: the value with the members of every
object in the order of their names, unless the value is nested too deeply. So a text of the
grammar is read as the value that it spells, exactly if the value keeps the limit.
-/

namespace PlainSync.Json

mutual

/-- The tokens of a value. -/
def toTokens : Json → List Token
  | null => [.null]
  | bool value => [.bool value]
  | integer value => [.integer value]
  | real value => [.real value]
  | string value => [.string value]
  | array items => .openBracket :: itemTokens items ++ [.closeBracket]
  | object members => .openBrace :: memberTokens members ++ [.closeBrace]

/-- The tokens of the items of an array. -/
def itemTokens : List Json → List Token
  | [] => []
  | [item] => item.toTokens
  | item :: next :: more => item.toTokens ++ .comma :: itemTokens (next :: more)

/-- The tokens of the members of an object. -/
def memberTokens : List (String × Json) → List Token
  | [] => []
  | [(name, value)] => .string name :: .colon :: value.toTokens
  | (name, value) :: next :: more =>
    .string name :: .colon :: value.toTokens ++ .comma :: memberTokens (next :: more)

end

mutual

/-- A value with the members of its objects in the order of their names, and of two members of
one name the last one only. -/
def normal : Json → Json
  | array items => array (normalItems items)
  | object members => sorted (normalMembers members)
  | other => other

/-- The items of an array in their normal form. -/
def normalItems : List Json → List Json
  | [] => []
  | item :: more => item.normal :: normalItems more

/-- The members of an object with their values in their normal form. -/
def normalMembers : List (String × Json) → List (String × Json)
  | [] => []
  | (name, value) :: more => (name, value.normal) :: normalMembers more

end

mutual

/-- How many arrays and objects are open at a time while a value is read. -/
def depth : Json → Nat
  | array items => depthOfItems items + 1
  | object members => depthOfMembers members + 1
  | _ => 0

/-- The depth of the deepest item. -/
def depthOfItems : List Json → Nat
  | [] => 0
  | item :: more => max item.depth (depthOfItems more)

/-- The depth of the deepest member. -/
def depthOfMembers : List (String × Json) → Nat
  | [] => 0
  | (_, value) :: more => max value.depth (depthOfMembers more)

end

/-! ## The tokens of a value -/

/-- No value begins with the end of an array. -/
theorem exists_toTokens_eq_cons (value : Json) :
    ∃ token tokens, value.toTokens = token :: tokens ∧ token ≠ .closeBracket := by
  cases value with
  | null => exact ⟨.null, [], rfl, Token.noConfusion⟩
  | bool truth => exact ⟨.bool truth, [], rfl, Token.noConfusion⟩
  | integer number => exact ⟨.integer number, [], rfl, Token.noConfusion⟩
  | real number => exact ⟨.real number, [], rfl, Token.noConfusion⟩
  | string text => exact ⟨.string text, [], rfl, Token.noConfusion⟩
  | array items => exact ⟨.openBracket, itemTokens items ++ [.closeBracket], rfl,
      Token.noConfusion⟩
  | object members => exact ⟨.openBrace, memberTokens members ++ [.closeBrace], rfl,
      Token.noConfusion⟩

/-- The items of an array begin with the first one. -/
theorem exists_itemTokens_eq_append (item : Json) (more : List Json) :
    ∃ others, itemTokens (item :: more) = item.toTokens ++ others := by
  cases more with
  | nil => exact ⟨[], by rw [itemTokens, List.append_nil]⟩
  | cons next more => exact ⟨_, itemTokens.eq_3 item next more⟩

/-- The members of an object begin with a name. -/
theorem exists_memberTokens_eq_cons (name : String) (value : Json)
    (more : List (String × Json)) :
    ∃ others, memberTokens ((name, value) :: more) = .string name :: others := by
  cases more with
  | nil => exact ⟨_, rfl⟩
  | cons next more => exact ⟨_, rfl⟩

/-- A member of an object is its name, a colon and its value, and behind a comma stand the other
members, if there are any. -/
theorem exists_memberTokens_eq_append (name : String) (value : Json)
    (more : List (String × Json)) :
    ∃ others, memberTokens ((name, value) :: more) =
        .string name :: .colon :: (value.toTokens ++ others) ∧
      ((more = [] ∧ others = []) ∨ (more ≠ [] ∧ others = .comma :: memberTokens more)) := by
  cases more with
  | nil => exact ⟨[], by rw [memberTokens, List.append_nil], Or.inl ⟨rfl, rfl⟩⟩
  | cons next more =>
    exact ⟨_, memberTokens.eq_3 name value next more, Or.inr ⟨List.cons_ne_nil next more, rfl⟩⟩

namespace ReadState

/-- Tokens are read one after the other. -/
theorem run_cons (state : ReadState) (token : Token) (more : List Token) :
    state.run (token :: more) = (state.step token).bind fun state => state.run more := rfl

/-- Reading goes on from the state that the first token leads to. -/
theorem run_of_step {state next : ReadState} {token : Token}
    (hstep : state.step token = some next) (more : List Token) :
    state.run (token :: more) = next.run more := by
  rw [run_cons, hstep, Option.bind_some]

/-- A value that begins an array is read as any other item. -/
theorem run_firstItem (frames : List Frame) (value : Json) (rest : List Token) :
    (firstItem frames).run (value.toTokens ++ rest) =
      (ReadState.value (.array [] :: frames)).run (value.toTokens ++ rest) := by
  obtain ⟨token, tokens, htokens, hne⟩ := exists_toTokens_eq_cons value
  have hstep : (firstItem frames).step token =
      (ReadState.value (.array [] :: frames)).step token := by
    cases token with
    | closeBracket => exact absurd rfl hne
    | _ => rfl
  rw [htokens, List.cons_append, run_cons, run_cons, hstep]

section

variable {frames : List Frame}

/-- An array is opened if the limit allows one more. -/
theorem run_openBracket (rest : List Token) :
    (ReadState.value frames).run (.openBracket :: rest) =
      if frames.length < maxDepth then (firstItem frames).run rest else none := by
  have hstep : (ReadState.value frames).step .openBracket =
      if frames.length < maxDepth then some (firstItem frames) else none := rfl
  rw [run_cons, hstep]
  by_cases hfits : frames.length < maxDepth
  · rw [if_pos hfits, if_pos hfits, Option.bind_some]
  · rw [if_neg hfits, if_neg hfits, Option.bind_none]

/-- An object is opened if the limit allows one more. -/
theorem run_openBrace (rest : List Token) :
    (ReadState.value frames).run (.openBrace :: rest) =
      if frames.length < maxDepth then (firstName frames).run rest else none := by
  have hstep : (ReadState.value frames).step .openBrace =
      if frames.length < maxDepth then some (firstName frames) else none := rfl
  rw [run_cons, hstep]
  by_cases hfits : frames.length < maxDepth
  · rw [if_pos hfits, if_pos hfits, Option.bind_some]
  · rw [if_neg hfits, if_neg hfits, Option.bind_none]

end

/-- What tokens are read to if no more arrays and objects are opened than the limit allows. -/
def runWithin (opened : Nat) (state : ReadState) (rest : List Token) : Option ReadState :=
  if opened ≤ maxDepth then state.run rest else none

/-- A token that opens nothing leaves the depth. -/
theorem runWithin_of_step {state next : ReadState} {token : Token} (opened : Nat)
    (hstep : state.step token = some next) (rest : List Token) :
    runWithin opened state (token :: rest) = runWithin opened next rest := by
  unfold runWithin
  rw [run_of_step hstep]

/-- The limit is kept by two parts if it is kept by the deeper one. -/
theorem runWithin_of_run {first second : Nat} {state next : ReadState} {more rest : List Token}
    (hrun : state.run more = runWithin second next rest) :
    runWithin first state more = runWithin (max first second) next rest := by
  unfold runWithin at hrun ⊢
  rw [hrun]
  by_cases hfirst : first ≤ maxDepth
  · by_cases hsecond : second ≤ maxDepth
    · rw [if_pos hfirst, if_pos hsecond, if_pos (Nat.max_le.mpr ⟨hfirst, hsecond⟩)]
    · rw [if_pos hfirst, if_neg hsecond, if_neg (fun hmax => hsecond (Nat.max_le.mp hmax).2)]
  · rw [if_neg hfirst, if_neg (fun hmax => hfirst (Nat.max_le.mp hmax).1)]

mutual

/-- A value is read up to its end, unless too many arrays and objects are open in it. -/
theorem run_value (value : Json) (frames : List Frame) (rest : List Token)
    (hframes : frames.length ≤ maxDepth) :
    (ReadState.value frames).run (value.toTokens ++ rest) =
      runWithin (frames.length + value.depth) (behind frames value.normal) rest := by
  match value with
  | .null => exact (if_pos hframes).symm
  | .bool truth => exact (if_pos hframes).symm
  | .integer number => exact (if_pos hframes).symm
  | .real number => exact (if_pos hframes).symm
  | .string text => exact (if_pos hframes).symm
  | .array items =>
    rw [toTokens, List.append_assoc, List.cons_append, run_openBracket, depth, normal]
    by_cases hfits : frames.length < maxDepth
    · rw [if_pos hfits]
      exact run_array items frames rest hfits
    · rw [if_neg hfits, runWithin, if_neg (by omega)]
  | .object members =>
    rw [toTokens, List.append_assoc, List.cons_append, run_openBrace, depth, normal]
    by_cases hfits : frames.length < maxDepth
    · rw [if_pos hfits]
      exact run_object members frames rest hfits
    · rw [if_neg hfits, runWithin, if_neg (by omega)]
termination_by (sizeOf value, 0)

/-- An array is read up to its end. -/
theorem run_array (items : List Json) (frames : List Frame) (rest : List Token)
    (hfits : frames.length < maxDepth) :
    (firstItem frames).run (itemTokens items ++ ([.closeBracket] ++ rest)) =
      runWithin (frames.length + (depthOfItems items + 1))
        (behind frames (.array (normalItems items))) rest := by
  match items with
  | [] => exact (if_pos hfits).symm
  | item :: more =>
    obtain ⟨others, hothers⟩ := exists_itemTokens_eq_append item more
    have hitems := run_items item more [] frames rest hfits
    rw [hothers, List.append_assoc] at hitems ⊢
    rw [run_firstItem, hitems]
    rfl
termination_by (sizeOf items, 1)

/-- The items of an array are read up to its end. -/
theorem run_items (item : Json) (more read : List Json) (frames : List Frame)
    (rest : List Token) (hfits : frames.length < maxDepth) :
    (ReadState.value (.array read :: frames)).run
        (itemTokens (item :: more) ++ ([.closeBracket] ++ rest)) =
      runWithin (frames.length + (depthOfItems (item :: more) + 1))
        (behind frames (.array (read.reverse ++ normalItems (item :: more)))) rest := by
  match more with
  | [] =>
    have hdepth : frames.length + (depthOfItems [item] + 1) =
        (Frame.array read :: frames).length + item.depth := by
      rw [depthOfItems, depthOfItems, List.length_cons]
      omega
    rw [itemTokens, run_value item (.array read :: frames) _ hfits, hdepth]
    exact runWithin_of_step _ rfl rest
  | next :: more =>
    have hmore := run_items next more (item.normal :: read) frames rest hfits
    have hdepth : frames.length + (depthOfItems (item :: next :: more) + 1) =
        max ((Frame.array read :: frames).length + item.depth)
          (frames.length + (depthOfItems (next :: more) + 1)) := by
      rw [depthOfItems, List.length_cons]
      omega
    have hnormal : normalItems (item :: next :: more) =
        item.normal :: normalItems (next :: more) := normalItems.eq_2 item (next :: more)
    rw [itemTokens, List.append_assoc, run_value item (.array read :: frames) _ hfits, hdepth,
      List.cons_append, runWithin_of_step _ rfl, runWithin_of_run hmore, hnormal,
      List.reverse_cons, List.append_assoc, List.singleton_append]
termination_by (sizeOf (item :: more), 0)

/-- An object is read up to its end. -/
theorem run_object (members : List (String × Json)) (frames : List Frame) (rest : List Token)
    (hfits : frames.length < maxDepth) :
    (firstName frames).run (memberTokens members ++ ([.closeBrace] ++ rest)) =
      runWithin (frames.length + (depthOfMembers members + 1))
        (behind frames (sorted (normalMembers members))) rest := by
  match members with
  | [] => exact (if_pos hfits).symm
  | (label, member) :: more =>
    obtain ⟨others, hothers⟩ := exists_memberTokens_eq_cons label member more
    have hmembers := run_members label member more [] frames rest hfits
    rw [hothers, List.cons_append] at hmembers ⊢
    exact hmembers
termination_by (sizeOf members, 1)

/-- The members of an object are read up to its end. -/
theorem run_members (label : String) (member : Json) (more read : List (String × Json))
    (frames : List Frame) (rest : List Token) (hfits : frames.length < maxDepth) :
    (ReadState.name frames read).run
        (memberTokens ((label, member) :: more) ++ ([.closeBrace] ++ rest)) =
      runWithin (frames.length + (depthOfMembers ((label, member) :: more) + 1))
        (behind frames (sorted (read.reverse ++ normalMembers ((label, member) :: more))))
        rest := by
  match more with
  | [] =>
    have hdepth : frames.length + (depthOfMembers [(label, member)] + 1) =
        (Frame.object read label :: frames).length + member.depth := by
      rw [depthOfMembers, depthOfMembers, List.length_cons]
      omega
    rw [memberTokens, List.cons_append, List.cons_append, run_of_step rfl, run_of_step rfl,
      run_value member (.object read label :: frames) _ hfits, hdepth]
    exact runWithin_of_step _ rfl rest
  | next :: more =>
    obtain ⟨other, another⟩ := next
    have hmore := run_members other another more ((label, member.normal) :: read) frames rest hfits
    have hdepth : frames.length + (depthOfMembers ((label, member) :: (other, another) :: more) + 1)
        = max ((Frame.object read label :: frames).length + member.depth)
          (frames.length + (depthOfMembers ((other, another) :: more) + 1)) := by
      rw [depthOfMembers, List.length_cons]
      omega
    have hnormal : normalMembers ((label, member) :: (other, another) :: more) =
        (label, member.normal) :: normalMembers ((other, another) :: more) :=
      normalMembers.eq_2 label member ((other, another) :: more)
    rw [memberTokens, List.cons_append, List.cons_append, List.append_assoc, run_of_step rfl,
      List.cons_append, run_of_step rfl, run_value member (.object read label :: frames) _ hfits,
      hdepth,
      List.cons_append, runWithin_of_step _ rfl, runWithin_of_run hmore, hnormal,
      List.reverse_cons, List.append_assoc, List.singleton_append]
termination_by (sizeOf ((label, member) :: more), 0)

end

end ReadState

/-- Tokens of a value are read as its normal form, exactly if it keeps the limit. -/
theorem ofTokens?_toTokens (value : Json) :
    ofTokens? value.toTokens = if value.depth ≤ maxDepth then some value.normal else none := by
  have hrun := ReadState.run_value value [] [] (Nat.zero_le maxDepth)
  rw [List.append_nil, List.length_nil, Nat.zero_add] at hrun
  unfold ofTokens?
  rw [hrun, ReadState.runWithin]
  by_cases hdepth : value.depth ≤ maxDepth
  · rw [if_pos hdepth, if_pos hdepth]
    rfl
  · rw [if_neg hdepth, if_neg hdepth]
    rfl

/-- A text that spells a value is read as its normal form, exactly if it keeps the limit. -/
theorem ofChars?_of_spells {value : Json} {text : List Char}
    (htext : Spells value.toTokens text) :
    ofChars? text = if value.depth ≤ maxDepth then some value.normal else none := by
  unfold ofChars?
  rw [htext.tokens_eq, ofTokens?_toTokens]

end PlainSync.Json
