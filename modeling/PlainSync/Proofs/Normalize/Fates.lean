import Mathlib.Logic.ExistsUnique
import PlainSync.Proofs.Normalize.Replacements
import PlainSync.Proofs.Source.Calls

/-!
# The fates of calls

Every call of a source is rewritten, kept, or ignored because it stands in an argument that a
rewritten call does not need. The rewritten calls around a call decide which: they ignore it, or
they decide how far it is read.
-/

namespace PlainSync.Source

open Bytes

/-- What becomes of a call. -/
inductive Fate where
  | rewritten (list : ArgumentList)
  | kept (reason : KeepReason)
  /-- It goes with an argument that is not needed. -/
  | ignored
  deriving DecidableEq, Repr

/-- Where an argument of a rewritten call stands. -/
structure Stretch where
  start : Nat
  stop : Nat
  needed : Bool
  deriving DecidableEq, Repr

def Stretch.covers (stretch : Stretch) (position : Nat) : Bool :=
  stretch.start ≤ position && position < stretch.stop

/-- Where the arguments of a call stand, the first of which begins at `start`. The call needs
`count` of them. -/
def stretchesOf (start count : Nat) : List Bytes → List Stretch
  | [] => []
  | argument :: more =>
    ⟨start, start + argument.length, count ≠ 0⟩ ::
      stretchesOf (start + argument.length + 1) (count - 1) more

/-- A call and what becomes of it. -/
structure Account where
  call : CodeCall
  fate : Fate
  deriving DecidableEq, Repr

/-- The arguments of a call that is rewritten. -/
def Account.stretches (account : Account) : List Stretch :=
  match account.fate with
  | .rewritten list =>
    stretchesOf account.call.inner account.call.builtin.operandCount list.arguments
  | _ => []

/-- The arguments of rewritten calls that a position stands in. -/
def stretchesAround (accounts : List Account) (position : Nat) : List Stretch :=
  (accounts.flatMap Account.stretches).filter (·.covers position)

/-- The line of a position, counted from one. -/
def lineAt (source : Bytes) (position : Nat) : Nat := 1 + newlines (source.take position)

/-- The arguments of a call that is read up to `limit`, if it can be rewritten, else the reason
to keep it. -/
def verdict (source : Bytes) (limit : Nat) (call : CodeCall) : Except KeepReason ArgumentList :=
  match splitArguments? 0 ((source.take limit).drop call.inner) with
  | none => .error .unterminated
  | some list =>
    match (directivesOf 0 (lexemes [] source)).find? fun position =>
        call.inner ≤ position && position < call.inner + list.inside.length with
    | some position => .error (.directive (lineAt source position))
    | none =>
      if list.arguments.length < call.builtin.operandCount then
        .error (.arity call.builtin.operandCount list.arguments.length)
      else .ok list

/-- The fate of a call in a text that ends at `limit`, if it stands in the given arguments. -/
def fateOf (source : Bytes) (limit : Nat) (around : List Stretch) (call : CodeCall) : Fate :=
  if around.all (·.needed) then
    match verdict source (around.foldl (fun stop stretch => min stop stretch.stop) limit) call with
    | .ok list => .rewritten list
    | .error reason => .kept reason
  else .ignored

/-- The entry of a report for a call that is kept. -/
def Account.kept? (source : Bytes) (account : Account) : Option KeptCall :=
  match account.fate with
  | .kept reason => some ⟨lineAt source account.call.position, account.call.builtin, reason⟩
  | _ => none

/-- The entry of a report for a call that is rewritten. -/
def Account.rewritten? (account : Account) : Option Builtin :=
  match account.fate with
  | .rewritten _ => some account.call.builtin
  | _ => none

/-- A call is rewritten and stands in no argument of another one that is. -/
def isOutermost (accounts : List Account) (account : Account) : Bool :=
  account.rewritten?.isSome && (stretchesAround accounts account.call.position).isEmpty

/-- The account of a call that is replaced. -/
def Replacement.account (replacement : Replacement) : Account where
  call := ⟨replacement.position, replacement.builtin,
    replacement.position + replacement.builtin.spelling.length + replacement.gap.length + 1⟩
  fate := .rewritten replacement.list

/-- A normalized source gives account of every call of the source. -/
structure Accounting (config : Config) (source : Bytes) (normalized : Normalized)
    (accounts : List Account) : Prop where
  /-- Every call that one scan of the source sees is accounted for once, and no other. -/
  calls : accounts.map Account.call = codeCalls source
  /-- The rewritten calls around a call decide its fate. -/
  fates : ∀ account ∈ accounts, account.fate =
    fateOf source source.length (stretchesAround accounts account.call.position) account.call
  kept : normalized.report.kept = accounts.filterMap (Account.kept? source)
  rewritten : normalized.report.expanded.Perm (accounts.filterMap Account.rewritten?)
  /-- The text is the source with the outermost rewritten calls replaced, their arguments being
  normalized for that. -/
  replaced : ∃ replacements,
    Replaces config source 0 0 normalized.text normalized.report.expanded replacements ∧
      replacements.map Replacement.account = accounts.filter (isOutermost accounts)

/-! ## The arguments around a position -/

/-- The arguments of the first call that a position stands in come first. -/
theorem stretchesAround_cons (account : Account) (accounts : List Account) (position : Nat) :
    stretchesAround (account :: accounts) position =
      account.stretches.filter (·.covers position) ++ stretchesAround accounts position := by
  simp [stretchesAround]

/-- The arguments of two lists of calls that a position stands in. -/
theorem stretchesAround_append (front back : List Account) (position : Nat) :
    stretchesAround (front ++ back) position =
      stretchesAround front position ++ stretchesAround back position := by
  simp [stretchesAround]

/-- A position outside of all arguments stands in none. -/
theorem filter_covers_eq_nil {stretches : List Stretch} {position : Nat}
    (houtside : ∀ stretch ∈ stretches, position < stretch.start ∨ stretch.stop ≤ position) :
    stretches.filter (·.covers position) = [] := by
  rw [List.filter_eq_nil_iff]
  intro stretch hstretch
  have hbounds := houtside stretch hstretch
  simp only [Stretch.covers, Bool.and_eq_true, decide_eq_true_eq]
  omega

/-- A position within one argument stands in that one. -/
theorem filter_covers_singleton {start stop position : Nat} {needed : Bool}
    (hposition : start ≤ position ∧ position < stop) :
    [Stretch.mk start stop needed].filter (·.covers position) = [⟨start, stop, needed⟩] :=
  List.filter_cons_of_pos (by simp [Stretch.covers, hposition])

/-- A position outside of the arguments of all calls stands in none of them. -/
theorem stretchesAround_eq_nil {accounts : List Account} {position : Nat}
    (houtside : ∀ account ∈ accounts, ∀ stretch ∈ account.stretches,
      position < stretch.start ∨ stretch.stop ≤ position) :
    stretchesAround accounts position = [] := by
  refine filter_covers_eq_nil fun stretch hstretch => ?_
  obtain ⟨account, haccount, hmem⟩ := List.mem_flatMap.mp hstretch
  exact houtside account haccount stretch hmem

/-- Every argument stands within the text of all of them. -/
theorem bounds_of_mem_stretchesOf {start count : Nat} {arguments : List Bytes} {stretch : Stretch}
    (hstretch : stretch ∈ stretchesOf start count arguments) :
    start ≤ stretch.start ∧ stretch.stop + 1 ≤ start + outlineSize arguments := by
  induction arguments generalizing start count with
  | nil => cases hstretch
  | cons argument more ih =>
    rw [stretchesOf] at hstretch
    rw [outlineSize]
    rcases List.mem_cons.mp hstretch with rfl | hmore
    · dsimp only
      omega
    · have hbounds := ih hmore
      omega

/-- The arguments of a call stand behind its opening parenthesis. -/
theorem inner_le_of_mem_stretches {account : Account} {stretch : Stretch}
    (hstretch : stretch ∈ account.stretches) : account.call.inner ≤ stretch.start := by
  unfold Account.stretches at hstretch
  split at hstretch
  · exact (bounds_of_mem_stretchesOf hstretch).1
  · cases hstretch

/-- A needed argument decides how far the calls in it are read. -/
theorem fateOf_needed (source : Bytes) {limit : Nat} {stretch : Stretch} (around : List Stretch)
    (call : CodeCall) (hneeded : stretch.needed = true) (hstop : stretch.stop ≤ limit) :
    fateOf source limit (stretch :: around) call = fateOf source stretch.stop around call := by
  simp only [fateOf, List.all_cons, hneeded, Bool.true_and, List.foldl_cons,
    Nat.min_eq_right hstop]

/-- A call goes with an argument that is not needed. -/
theorem fateOf_ignored (source : Bytes) (limit : Nat) {stretch : Stretch} (around : List Stretch)
    (call : CodeCall) (hneeded : stretch.needed = false) :
    fateOf source limit (stretch :: around) call = .ignored := by
  simp only [fateOf, List.all_cons, hneeded, Bool.false_and, Bool.false_eq_true, if_false]

/-- Outside all arguments the verdict decides. -/
theorem fateOf_nil (source : Bytes) (limit : Nat) (call : CodeCall) :
    fateOf source limit [] call =
      match verdict source limit call with
      | .ok list => .rewritten list
      | .error reason => .kept reason := rfl

/-! ## One fate -/

/-- The fates of calls from left to right follow from those in front of them. -/
theorem eq_of_fates {source : Bytes} {limit : Nat} {accounts accounts' : List Account}
    (done : List Account) (hcalls : accounts.map Account.call = accounts'.map Account.call)
    (hsorted : (accounts.map Account.call).Pairwise (·.position < ·.position))
    (hinner : ∀ call ∈ accounts.map Account.call, call.position < call.inner)
    (hfates : ∀ account ∈ accounts, account.fate = fateOf source limit
      (stretchesAround (done ++ accounts) account.call.position) account.call)
    (hfates' : ∀ account ∈ accounts', account.fate = fateOf source limit
      (stretchesAround (done ++ accounts') account.call.position) account.call) :
    accounts = accounts' := by
  induction accounts generalizing done accounts' with
  | nil => exact (List.map_eq_nil_iff.mp hcalls.symm).symm
  | cons account accounts ih =>
    -- No call in the list, or behind the first one, has arguments around the first one.
    have hnone (others : List Account)
        (hothers : others.map Account.call = (account :: accounts).map Account.call) :
        stretchesAround (done ++ others) account.call.position =
          stretchesAround done account.call.position := by
      have hempty : stretchesAround others account.call.position = [] := by
        refine stretchesAround_eq_nil fun other hother stretch hstretch => .inl ?_
        have hmem : other.call ∈ (account :: accounts).map Account.call := by
          rw [← hothers]
          exact List.mem_map_of_mem hother
        have hstart := inner_le_of_mem_stretches hstretch
        have hopened := hinner other.call hmem
        rw [List.map_cons] at hmem hsorted
        rcases List.mem_cons.mp hmem with hsame | hmore
        · rw [hsame] at hopened hstart
          omega
        · have hlater := (List.pairwise_cons.mp hsorted).1 other.call hmore
          omega
      rw [stretchesAround_append, hempty, List.append_nil]
    cases accounts' with
    | nil => cases hcalls
    | cons account' accounts' =>
      have hcall : account'.call = account.call := (List.cons.inj hcalls).1.symm
      have hfate : account'.fate = account.fate := by
        rw [hfates account List.mem_cons_self, hfates' account' List.mem_cons_self, hcall,
          hnone _ rfl, hnone _ hcalls.symm]
      have hsame : account' = account := by
        cases account
        cases account'
        cases hcall
        cases hfate
        rfl
      subst hsame
      rw [List.map_cons] at hsorted hinner
      have hfront (others : List Account) :
          done ++ account' :: others = done ++ [account'] ++ others := by simp
      rw [hfront] at hfates hfates'
      rw [ih (done ++ [account']) (List.cons.inj hcalls).2 (List.pairwise_cons.mp hsorted).2
        (fun call hcall => hinner call (List.mem_cons_of_mem _ hcall))
        (fun other hother => hfates other (List.mem_cons_of_mem _ hother))
        (fun other hother => hfates' other (List.mem_cons_of_mem _ hother))]

end PlainSync.Source
