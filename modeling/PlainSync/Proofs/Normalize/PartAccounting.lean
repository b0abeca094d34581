import PlainSync.Proofs.Normalize.Fates

/-!
# Accounts of a part of a source

Parts of a source that stand one behind the other are accounted for one by one. So are the
arguments of a call, whether they are needed or not.
-/

namespace PlainSync.Source

open Bytes

/-! ## Accounts of a part -/

/-- Accounts of the calls between `start` and `stop`, in a text that ends at `limit`. The part
consists of the arguments `outer` of one call, if there are any. The calls in `replaced` are those
that are rewritten outside all arguments. -/
structure PartAccounting (source : Bytes) (outer : List Stretch) (start stop limit : Nat)
    (calls : List CodeCall) (kept : List KeptCall) (rewritten : List Builtin)
    (replaced accounts : List Account) : Prop where
  calls : accounts.map Account.call = calls
  fates : ∀ account ∈ accounts, account.fate =
    fateOf source limit
      (outer.filter (·.covers account.call.position) ++
        stretchesAround accounts account.call.position) account.call
  kept : kept = accounts.filterMap (Account.kept? source)
  rewritten : rewritten.Perm (accounts.filterMap Account.rewritten?)
  replaced : replaced = accounts.filter fun account =>
    (outer.filter (·.covers account.call.position)).isEmpty && isOutermost accounts account
  outside : ∀ stretch ∈ outer, start ≤ stretch.start ∧ stretch.stop ≤ stop
  inside : ∀ account ∈ accounts, start ≤ account.call.position ∧ account.call.position < stop
  stretches : ∀ account ∈ accounts, ∀ stretch ∈ account.stretches,
    start ≤ stretch.start ∧ stretch.stop ≤ stop

namespace PartAccounting

variable {source : Bytes} {outer outer' : List Stretch} {start middle middle' stop limit : Nat}
  {calls calls' : List CodeCall} {kept kept' : List KeptCall} {rewritten rewritten' : List Builtin}
  {replaced replaced' accounts accounts' : List Account}

/-- A part without calls gives no account. -/
theorem empty (source : Bytes) (start stop limit : Nat) :
    PartAccounting source [] start stop limit [] [] [] [] [] where
  calls := rfl
  fates := nofun
  kept := rfl
  rewritten := .nil
  replaced := rfl
  outside := nofun
  inside := nofun
  stretches := nofun

/-- The arguments of a part cover nothing outside it. -/
theorem eq_nil_outside
    (hpart : PartAccounting source outer start stop limit calls kept rewritten replaced accounts)
    (position : Nat) (hposition : position < start ∨ stop ≤ position) :
    outer.filter (·.covers position) = [] ∧ stretchesAround accounts position = [] := by
  constructor
  · refine filter_covers_eq_nil fun stretch hstretch => ?_
    have hbounds := hpart.outside stretch hstretch
    omega
  · refine stretchesAround_eq_nil fun account haccount stretch hstretch => ?_
    have hbounds := hpart.stretches account haccount stretch hstretch
    omega

/-- Two parts, one behind the other. -/
theorem append
    (hfront : PartAccounting source outer start middle limit calls kept rewritten replaced accounts)
    (hback : PartAccounting source outer' middle' stop limit calls' kept' rewritten' replaced'
      accounts')
    (hstart : start ≤ middle) (hmiddle : middle ≤ middle') (hstop : middle' ≤ stop) :
    PartAccounting source (outer ++ outer') start stop limit (calls ++ calls') (kept ++ kept')
      (rewritten ++ rewritten') (replaced ++ replaced') (accounts ++ accounts') where
  calls := by rw [List.map_append, hfront.calls, hback.calls]
  fates := by
    intro account haccount
    rw [List.filter_append, stretchesAround_append]
    rcases List.mem_append.mp haccount with hmem | hmem
    · have hposition := hfront.inside account hmem
      obtain ⟨houter, haround⟩ := hback.eq_nil_outside account.call.position (by omega)
      rw [houter, haround, List.append_nil, List.append_nil]
      exact hfront.fates account hmem
    · have hposition := hback.inside account hmem
      obtain ⟨houter, haround⟩ := hfront.eq_nil_outside account.call.position (by omega)
      rw [houter, haround, List.nil_append, List.nil_append]
      exact hback.fates account hmem
  kept := by rw [List.filterMap_append, hfront.kept, hback.kept]
  rewritten := by
    rw [List.filterMap_append]
    exact hfront.rewritten.append hback.rewritten
  replaced := by
    rw [List.filter_append, hfront.replaced, hback.replaced]
    refine congrArg₂ (· ++ ·) (List.filter_congr fun account hmem => ?_)
      (List.filter_congr fun account hmem => ?_)
    · have hposition := hfront.inside account hmem
      obtain ⟨houter, haround⟩ := hback.eq_nil_outside account.call.position (by omega)
      rw [isOutermost, isOutermost, List.filter_append, stretchesAround_append, houter, haround,
        List.append_nil, List.append_nil]
    · have hposition := hback.inside account hmem
      obtain ⟨houter, haround⟩ := hfront.eq_nil_outside account.call.position (by omega)
      rw [isOutermost, isOutermost, List.filter_append, stretchesAround_append, houter, haround,
        List.nil_append, List.nil_append]
  outside := by
    intro stretch hstretch
    rcases List.mem_append.mp hstretch with hmem | hmem
    · have hbounds := hfront.outside stretch hmem
      omega
    · have hbounds := hback.outside stretch hmem
      omega
  inside := by
    intro account haccount
    rcases List.mem_append.mp haccount with hmem | hmem
    · have hbounds := hfront.inside account hmem
      omega
    · have hbounds := hback.inside account hmem
      omega
  stretches := by
    intro account haccount stretch hstretch
    rcases List.mem_append.mp haccount with hmem | hmem
    · have hbounds := hfront.stretches account hmem stretch hstretch
      omega
    · have hbounds := hback.stretches account hmem stretch hstretch
      omega

/-- A call in front of its arguments, which are all of the part behind it if it is rewritten. -/
theorem cons {head : Account} (hfate : head.fate = fateOf source limit [] head.call)
    (hbehind : PartAccounting source head.stretches start stop limit calls kept rewritten replaced
      accounts)
    (hposition : head.call.position < start) (hstop : start ≤ stop) :
    PartAccounting source [] head.call.position stop limit (head.call :: calls)
      ((head.kept? source).toList ++ kept) (rewritten ++ head.rewritten?.toList)
      ([head].filter (·.rewritten?.isSome) ++ replaced) (head :: accounts) where
  calls := by rw [List.map_cons, hbehind.calls]
  fates := by
    intro account haccount
    rw [stretchesAround_cons]
    rcases List.mem_cons.mp haccount with rfl | hmem
    · obtain ⟨houter, haround⟩ := hbehind.eq_nil_outside account.call.position (.inl hposition)
      rw [houter, haround]
      exact hfate
    · exact hbehind.fates account hmem
  kept := by
    rw [hbehind.kept, List.filterMap_cons]
    cases head.kept? source <;> rfl
  rewritten := by
    rw [List.filterMap_cons]
    cases head.rewritten? with
    | none => simpa using hbehind.rewritten
    | some builtin =>
      exact (List.perm_append_singleton builtin rewritten).trans (hbehind.rewritten.cons builtin)
  replaced := by
    change _ = ([head] ++ accounts).filter _
    rw [List.filter_append, hbehind.replaced]
    refine congrArg₂ (· ++ ·) (List.filter_congr fun account hmem => ?_)
      (List.filter_congr fun account _ => ?_)
    · rw [List.mem_singleton.mp hmem]
      obtain ⟨houter, haround⟩ := hbehind.eq_nil_outside head.call.position (.inl hposition)
      rw [isOutermost, stretchesAround_cons, houter, haround]
      exact (Bool.and_true _).symm
    · rw [isOutermost, isOutermost, stretchesAround_cons]
      cases head.stretches.filter (·.covers account.call.position) with
      | nil => rfl
      | cons stretch more => exact (Bool.and_false _).symm
  outside := nofun
  inside := by
    intro account haccount
    rcases List.mem_cons.mp haccount with rfl | hmem
    · omega
    · have hbounds := hbehind.inside account hmem
      omega
  stretches := by
    intro account haccount stretch hstretch
    rcases List.mem_cons.mp haccount with rfl | hmem
    · have hbounds := hbehind.outside stretch hstretch
      omega
    · have hbounds := hbehind.stretches account hmem stretch hstretch
      omega

end PartAccounting

/-! ## Accounts of arguments -/

/-- The outline of a text accounts for the calls that the scan of the whole source sees in it. -/
def Accountable (source : Bytes) (line : Nat) (before text : Bytes) : Prop :=
  ∀ front back site, lexemes [] source = front ++ lexemes before text ++ back →
    line = 1 + newlines (textOf front) →
    ∃ accounts, PartAccounting source [] (textOf front).length
      ((textOf front).length + text.length) ((textOf front).length + text.length)
      (callsOf (textOf front).length (lexemes before text))
      (keptInPieces (outline line before text)) (expandedPieces (outline line before text))
      ((replacementsOf site (textOf front).length (outline line before text)).map
        Replacement.account) accounts

/-- The calls of an argument that is not needed are ignored. -/
theorem partAccounting_ignored (source : Bytes) (start limit : Nat) (list : List Lexeme) :
    PartAccounting source [⟨start, start + (textOf list).length, false⟩] start
      (start + (textOf list).length) limit (callsOf start list) [] [] []
      ((callsOf start list).map (⟨·, .ignored⟩)) where
  calls := by rw [List.map_map]; exact List.map_id _
  fates := by
    intro account haccount
    obtain ⟨call, hcall, rfl⟩ := List.mem_map.mp haccount
    rw [filter_covers_singleton (bounds_of_mem_callsOf hcall)]
    exact (fateOf_ignored source limit _ call rfl).symm
  kept := by
    rw [List.filterMap_map]
    exact (List.filterMap_eq_nil_iff.mpr fun _ _ => rfl).symm
  rewritten := by
    rw [List.filterMap_map]
    exact .of_eq (List.filterMap_eq_nil_iff.mpr fun _ _ => rfl).symm
  replaced := by
    rw [List.filter_map]
    exact (List.map_eq_nil_iff.mpr (List.filter_eq_nil_iff.mpr (by simp [isOutermost,
      Account.rewritten?]))).symm
  outside := by
    intro stretch hstretch
    rw [List.mem_singleton.mp hstretch]
    exact ⟨Nat.le_refl _, Nat.le_refl _⟩
  inside := by
    intro account haccount
    obtain ⟨call, hcall, rfl⟩ := List.mem_map.mp haccount
    exact bounds_of_mem_callsOf hcall
  stretches := by
    intro account haccount stretch hstretch
    obtain ⟨call, -, rfl⟩ := List.mem_map.mp haccount
    cases hstretch

/-- An argument that is needed has the accounts of its outline. -/
theorem PartAccounting.needed {source : Bytes} {start stop limit : Nat} {calls : List CodeCall}
    {kept : List KeptCall} {rewritten : List Builtin} {replaced accounts : List Account}
    (hpart : PartAccounting source [] start stop stop calls kept rewritten replaced accounts)
    (hlimit : stop ≤ limit) :
    PartAccounting source [⟨start, stop, true⟩] start stop limit calls kept rewritten []
      accounts where
  calls := hpart.calls
  fates := by
    intro account haccount
    have hneeded (around : List Stretch) :
        fateOf source limit (⟨start, stop, true⟩ :: around) account.call =
          fateOf source stop around account.call := fateOf_needed source around _ rfl hlimit
    rw [filter_covers_singleton (hpart.inside account haccount), List.singleton_append, hneeded]
    exact hpart.fates account haccount
  kept := hpart.kept
  rewritten := hpart.rewritten
  replaced := by
    refine (List.filter_eq_nil_iff.mpr fun account haccount => ?_).symm
    rw [filter_covers_singleton (hpart.inside account haccount)]
    exact nofun
  outside := by
    intro stretch hstretch
    rw [List.mem_singleton.mp hstretch]
    exact ⟨Nat.le_refl _, Nat.le_refl _⟩
  inside := hpart.inside
  stretches := hpart.stretches

/-- The calls that are kept in operands one behind the other. -/
theorem keptInOperands_append (front back : List (List Piece)) :
    keptInOperands (front ++ back) = keptInOperands front ++ keptInOperands back := by
  induction front with
  | nil => rfl
  | cons operand front ih =>
    rw [List.cons_append, keptInOperands, keptInOperands, ih, List.append_assoc]

/-- The calls that are replaced in operands one behind the other. -/
theorem expandedOperands_append (front back : List (List Piece)) :
    expandedOperands (front ++ back) = expandedOperands front ++ expandedOperands back := by
  induction front with
  | nil => rfl
  | cons operand front ih =>
    rw [List.cons_append, expandedOperands, expandedOperands, ih, List.append_assoc]

/-- The first arguments are the first one and the first of the others. -/
theorem take_cons_eq_append (argument : Bytes) (more : List Bytes) (count : Nat) :
    (argument :: more).take count = [argument].take count ++ more.take (count - 1) := by
  cases count <;> simp

/-- An argument is needed if any is. -/
theorem mem_take_singleton {argument : Bytes} {count : Nat} (hcount : count ≠ 0) :
    argument ∈ [argument].take count := by
  cases count with
  | zero => exact absurd rfl hcount
  | succ count => exact List.mem_cons_self

/-- The operands are the first one and those of the other arguments. -/
theorem outlineOperands_take_cons (line count : Nat) (argument : Bytes) (more : List Bytes) :
    outlineOperands line ((argument :: more).take count) =
      outlineOperands line ([argument].take count) ++
        outlineOperands (line + newlines argument) (more.take (count - 1)) := by
  cases count <;> simp [outlineOperands]

section Arguments

variable {source : Bytes}

/-- The account of an argument, which is empty if the call does not need it. -/
theorem exists_partAccounting_argument {front list back : List Lexeme} {line limit : Nat}
    (count : Nat) (hlexemes : lexemes [] source = front ++ list ++ back) (hhashless : Hashless list)
    (hline : line = 1 + newlines (textOf front))
    (haccountable : count ≠ 0 → Accountable source line [] (textOf list))
    (hlimit : (textOf front).length + (textOf list).length ≤ limit) :
    ∃ accounts, PartAccounting source
      [⟨(textOf front).length, (textOf front).length + (textOf list).length, count ≠ 0⟩]
      (textOf front).length ((textOf front).length + (textOf list).length) limit
      (callsOf (textOf front).length list)
      (keptInOperands (outlineOperands line ([textOf list].take count)))
      (expandedOperands (outlineOperands line ([textOf list].take count))) [] accounts := by
  cases count with
  | zero =>
    rw [List.take_zero, outlineOperands]
    exact ⟨_, partAccounting_ignored source (textOf front).length limit list⟩
  | succ count =>
    have hown := lexemes_textOf hlexemes hhashless
    obtain ⟨accounts, hpart⟩ := haccountable (Nat.succ_ne_zero count) front back 0
      (by rw [hown]; exact hlexemes) hline
    rw [hown] at hpart
    refine ⟨accounts, ?_⟩
    simpa [outlineOperands, keptInOperands, expandedOperands] using hpart.needed hlimit

/-- The arguments of a call are accounted for one after the other. -/
theorem exists_partAccounting_arguments {front first back : List Lexeme} {more : List (List Lexeme)}
    {line limit : Nat} (count : Nat)
    (hlexemes : lexemes [] source = front ++ insideOf first more ++ back)
    (hhashless : Hashless (insideOf first more)) (hline : line = 1 + newlines (textOf front))
    (haccountable : ∀ argument ∈ (textOf first :: more.map textOf).take count,
      ∀ line, Accountable source line [] argument)
    (hlimit : (textOf front).length + (textOf (insideOf first more)).length ≤ limit) :
    ∃ accounts, PartAccounting source
      (stretchesOf (textOf front).length count (textOf first :: more.map textOf))
      (textOf front).length ((textOf front).length + (textOf (insideOf first more)).length) limit
      (callsOf (textOf front).length (insideOf first more))
      (keptInOperands (outlineOperands line ((textOf first :: more.map textOf).take count)))
      (expandedOperands (outlineOperands line ((textOf first :: more.map textOf).take count)))
      [] accounts := by
  induction more generalizing front first line count with
  | nil =>
    have hinside : insideOf first [] = first := List.append_nil first
    rw [hinside] at hlexemes hhashless hlimit ⊢
    refine exists_partAccounting_argument count hlexemes hhashless hline (fun hcount => ?_) hlimit
    exact haccountable _ (mem_take_singleton hcount) line
  | cons second more ih =>
    have hinside : insideOf first (second :: more) =
        first ++ .mark Byte.comma :: insideOf second more := by simp [insideOf]
    rw [hinside] at hlexemes hhashless hlimit ⊢
    simp only [textOf_append, textOf_cons, List.length_append, Lexeme.text, List.length_cons,
      List.length_nil] at hlimit
    rw [List.map_cons] at haccountable ⊢
    rw [take_cons_eq_append] at haccountable
    have hback : lexemes [] source =
        front ++ first ++ (.mark Byte.comma :: insideOf second more ++ back) := by
      rw [hlexemes]
      simp
    have hfront : lexemes [] source =
        front ++ first ++ [.mark Byte.comma] ++ insideOf second more ++ back := by
      rw [hlexemes]
      simp
    have hfits : (textOf front).length + (textOf first).length ≤ limit := by omega
    obtain ⟨accounts, hfirst⟩ := exists_partAccounting_argument count hback
      (fun lexeme hmem => hhashless lexeme (by simp [hmem])) hline
      (fun hcount =>
        haccountable _ (List.mem_append_left _ (mem_take_singleton hcount)) line) hfits
    have hline' : line + newlines (textOf first) =
        1 + newlines (textOf (front ++ first ++ [.mark Byte.comma])) := by
      rw [hline, textOf_append, textOf_append, newlines_append, newlines_append]
      simp only [textOf_cons, textOf_nil, Lexeme.text, List.append_nil,
        newlines_cons_of_ne (show Byte.comma ≠ Byte.newline by decide)]
      rw [Nat.add_assoc]
      rfl
    obtain ⟨others, hmore⟩ := ih (count - 1) hfront
      (fun lexeme hmem => hhashless lexeme (by simp [hmem])) hline'
      (fun argument hargument => haccountable argument (List.mem_append_right _ hargument))
      (by simp [Lexeme.text]; omega)
    have hstart : (textOf (front ++ first ++ [.mark Byte.comma])).length =
        (textOf front).length + (textOf first).length + 1 := by
      simp [Lexeme.text]
      omega
    have hstop : (textOf front).length +
        (textOf (first ++ .mark Byte.comma :: insideOf second more)).length =
          (textOf front).length + (textOf first).length + 1 +
            (textOf (insideOf second more)).length := by
      simp [Lexeme.text]
      omega
    rw [hstart] at hmore
    refine ⟨accounts ++ others, ?_⟩
    rw [outlineOperands_take_cons, keptInOperands_append, expandedOperands_append,
      callsOf_append _ (by decide), stretchesOf, hstop]
    exact hfirst.append hmore (by omega) (by omega) (by omega)

/-- Likewise for an argument list. If it has only white space, it has no arguments and no calls. -/
theorem exists_partAccounting_list {front first back : List Lexeme} {more : List (List Lexeme)}
    {list : ArgumentList} {line limit : Nat} (count : Nat)
    (hlexemes : lexemes [] source = front ++ insideOf first more ++ back)
    (hhashless : Hashless (insideOf first more)) (hline : line = 1 + newlines (textOf front))
    (hfirst : textOf first = list.first) (hmore : more.map textOf = list.more)
    (haccountable : ∀ argument ∈ list.arguments.take count,
      ∀ line, Accountable source line [] argument)
    (hlimit : (textOf front).length + list.inside.length ≤ limit) :
    ∃ accounts, PartAccounting source
      (stretchesOf (textOf front).length count list.arguments)
      (textOf front).length ((textOf front).length + list.inside.length) limit
      (callsOf (textOf front).length (insideOf first more))
      (keptInOperands (outlineOperands line (list.arguments.take count)))
      (expandedOperands (outlineOperands line (list.arguments.take count))) [] accounts := by
  by_cases hblank : list.more.isEmpty && list.first.all Byte.isWhiteSpace
  · have harguments : list.arguments = [] := by rw [ArgumentList.arguments, if_pos hblank]
    rw [Bool.and_eq_true, List.isEmpty_iff, ← hmore, List.map_eq_nil_iff, ← hfirst] at hblank
    obtain ⟨rfl, hwhite⟩ := hblank
    have hcalls : callsOf (textOf front).length (insideOf first []) = [] := by
      refine callsOf_of_white fun b hb => ?_
      rw [textOf_insideOf, List.map_nil, List.flatMap_nil, List.append_nil] at hb
      exact List.all_eq_true.mp hwhite b hb
    rw [harguments, List.take_nil, outlineOperands, hcalls]
    exact ⟨[], .empty source _ _ _⟩
  · have harguments : list.arguments = textOf first :: more.map textOf := by
      rw [ArgumentList.arguments, if_neg hblank, hfirst, hmore]
    rw [harguments] at haccountable ⊢
    rw [← textOf_insideOf_eq_inside hfirst hmore] at hlimit ⊢
    exact exists_partAccounting_arguments count hlexemes hhashless hline haccountable hlimit

end Arguments

end PlainSync.Source
