import PlainSync.Proofs.Normalize.CallSites
import PlainSync.Proofs.Source.Tokens

/-!
# Missing arguments

An argument that a call needs is missing if there are too few commas, if it is blank or if it is
only a comment. A call is kept if there are too few commas or if nothing but white space stands
between its parentheses. A blank or a comment that has a place of its own between commas passes for
an argument.
-/

namespace PlainSync.Source

open Bytes

/-- The stretches between the commas of an argument list, blank ones included. -/
def ArgumentList.stretches (list : ArgumentList) : List Bytes := list.first :: list.more

/-- Every argument that a call needs is there and has a token. -/
def WellFormed (builtin : Builtin) (list : ArgumentList) : Prop :=
  ∀ index < builtin.operandCount, ∃ stretch ∈ list.stretches[index]?, HasToken stretch

instance (builtin : Builtin) (list : ArgumentList) : Decidable (WellFormed builtin list) :=
  inferInstanceAs (Decidable (∀ index < builtin.operandCount, _))

/-- The arguments of a list that has any are its stretches. -/
theorem arguments_eq_stretches {list : ArgumentList} (hsome : list.arguments ≠ []) :
    list.arguments = list.stretches := by
  unfold ArgumentList.arguments at hsome ⊢
  split at hsome
  · exact absurd rfl hsome
  · next hblank => rw [if_neg hblank]; rfl

/-- A list whose stretches all have tokens, unless it has only white space, is well formed for a
call that can be replaced. -/
theorem wellFormed_of_le {builtin : Builtin} {list : ArgumentList}
    (hcount : builtin.operandCount ≤ list.arguments.length)
    (htokens : ∀ stretch ∈ list.arguments.take builtin.operandCount, HasToken stretch) :
    WellFormed builtin list := by
  intro index hindex
  have hfits : index < list.arguments.length := by omega
  have hsome : list.arguments ≠ [] := List.ne_nil_of_length_pos (by omega)
  have hget : list.arguments[index]? = some list.arguments[index] := List.getElem?_eq_getElem hfits
  refine ⟨list.arguments[index], ?_, htokens _ ?_⟩
  · rw [← arguments_eq_stretches hsome]
    exact hget
  · exact List.mem_of_getElem? ((List.getElem?_take_of_lt hindex).trans hget)

/-- A well-formed list has the arguments that the call needs. -/
theorem WellFormed.operandCount_le {builtin : Builtin} {list : ArgumentList}
    (hlist : WellFormed builtin list) : builtin.operandCount ≤ list.arguments.length := by
  by_contra hfewer
  have hpos : 0 < builtin.operandCount := by omega
  obtain ⟨stretch, hlast, -⟩ := hlist (builtin.operandCount - 1) (by omega)
  have hlength := (List.getElem?_eq_some_iff.mp hlast).1
  by_cases hsome : list.arguments = []
  · -- The list has only white space, so its first stretch has no token.
    obtain ⟨first, hfirst, htoken⟩ := hlist 0 hpos
    obtain rfl : list.first = first := Option.some.inj hfirst
    refine not_hasToken_of_white (List.all_eq_true.mp ?_) htoken
    unfold ArgumentList.arguments at hsome
    split at hsome
    · next hblank => exact ((Bool.and_eq_true _ _).mp hblank).2
    · cases hsome
  · rw [arguments_eq_stretches hsome] at hfewer
    omega

/-- A session decides about calls by their arguments: the report is what is decided, a call without
an argument that it needs is kept and reported unless a stretch without tokens passes for the
argument, and no other call is kept for its arguments. -/
theorem verdict_of_arguments (session : Session) (source : Bytes) :
    SitesBetween 1 source 0 source.length (session.normalize source).1.report.kept
        (callSites session source) ∧
      (session.normalize source).1.report.expanded.Perm
        ((callSites session source).filterMap CallSite.replaced?) ∧
      ∀ site ∈ callSites session source, ∀ gap list, site.tail? source = some (gap, list) →
        (¬ WellFormed site.builtin list →
          (∀ stretch ∈ list.arguments.take site.builtin.operandCount, HasToken stretch) →
            ∃ reason, site.verdict = .error reason ∧
              ⟨lineAt source site.position, site.builtin, reason⟩ ∈
                (session.normalize source).1.report.kept) ∧
        (WellFormed site.builtin list →
          ∀ expected found, site.verdict ≠ .error (.arity expected found)) := by
  obtain ⟨hsites, hexpanded⟩ := sitesBetween_callSites session source
  refine ⟨hsites, hexpanded, fun site hsite gap list htail => ⟨fun hmalformed htokens => ?_, ?_⟩⟩
  · cases hverdict : site.verdict with
    | ok arguments =>
      obtain ⟨gap', behind, htail', hcount⟩ := (hsites.judged site hsite).replaced _ hverdict
      obtain ⟨-, rfl⟩ := Prod.mk.inj (Option.some.inj (htail'.symm.trans htail))
      exact absurd (wellFormed_of_le hcount htokens) hmalformed
    | error reason =>
      refine ⟨reason, rfl, ?_⟩
      rw [hsites.kept]
      exact List.mem_filterMap.mpr ⟨site, hsite, by rw [CallSite.kept?, hverdict]; rfl⟩
  · intro hlist expected found hverdict
    obtain ⟨gap', list', htail', rfl, rfl, hfewer⟩ :=
      (hsites.judged site hsite).arity _ _ hverdict
    obtain ⟨-, rfl⟩ := Prod.mk.inj (Option.some.inj (htail'.symm.trans htail))
    have hcount := hlist.operandCount_le
    omega

/-- A call without arguments inside another one. -/
def nestedMissing : Bytes := ofString "__sync_fetch_and_add(p, __sync_lock_release( ))"

/-- The inner call is kept for its argument, and the outer one is not. -/
theorem verdict_nestedMissing :
    (callSites { config := {} } nestedMissing).map CallSite.position = [0, 24] ∧
    SitesBetween 1 nestedMissing 0 nestedMissing.length
        (Session.normalize { config := {} } nestedMissing).1.report.kept
        (callSites { config := {} } nestedMissing) ∧
      (Session.normalize { config := {} } nestedMissing).1.report.expanded.Perm
        ((callSites { config := {} } nestedMissing).filterMap CallSite.replaced?) ∧
      ∀ site ∈ callSites { config := {} } nestedMissing, ∀ gap list,
        site.tail? nestedMissing = some (gap, list) →
          (¬ WellFormed site.builtin list →
            (∀ stretch ∈ list.arguments.take site.builtin.operandCount, HasToken stretch) →
              ∃ reason, site.verdict = .error reason ∧
                ⟨lineAt nestedMissing site.position, site.builtin, reason⟩ ∈
                  (Session.normalize { config := {} } nestedMissing).1.report.kept) ∧
          (WellFormed site.builtin list →
            ∀ expected found, site.verdict ≠ .error (.arity expected found)) :=
  ⟨by decide +kernel, verdict_of_arguments { config := {} } nestedMissing⟩

/-- A call with a blank between comma and parenthesis, and one with a comment for its argument. -/
def blankArguments : Bytes := ofString "__sync_fetch_and_add(p, );__sync_lock_release(/* p */)"

/-- A blank behind a comma passes for an argument, and so does a comment. -/
theorem expanded_blankArguments :
    (normalize {} blankArguments).report =
        { expanded := [.fetchAndOp .add, .lockRelease] } ∧
      (callSites { config := {} } blankArguments).map (fun site =>
          (site.tail? blankArguments).map fun tail =>
            (tail.2.stretches, decide (WellFormed site.builtin tail.2))) =
        [some ([ofString "p", ofString " "], false), some ([ofString "/* p */"], false)] := by
  decide +kernel

end PlainSync.Source
