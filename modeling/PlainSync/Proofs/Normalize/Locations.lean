import Mathlib.Data.List.Forall2
import PlainSync.Proofs.Normalize.CallSites

/-!
# Where the calls of a report stand

A call that is kept may stand in an argument of an argument, and each argument is outlined as a
text of its own. The lines of the report are those of the whole source nevertheless: every kept
call stands at a position of the source, further to the right than the calls reported before it,
and its line and that of a directive among its arguments count the line ends up to there.
-/

namespace PlainSync.Source

open Bytes

/-- A call that is kept stands at a position of the source. -/
structure Located (source : Bytes) (call : KeptCall) (position : Nat) : Prop where
  name : call.builtin.spelling <+: source.drop position
  line : call.line = lineAt source position
  /-- A directive that is reported stands in the argument list of the call. -/
  directive : ∀ line, call.reason = .directive line →
    ∃ gap inner list hash,
      source.drop position = call.builtin.spelling ++ gap ++ Byte.openParen :: inner ∧
      (∀ b ∈ gap, Byte.isWhiteSpace b) ∧
      splitArguments? 0 inner = some list ∧
      position + call.builtin.spelling.length + gap.length + 1 ≤ hash ∧
      hash < position + call.builtin.spelling.length + gap.length + 1 + list.inside.length ∧
      source[hash]? = some Byte.hash ∧
      line = lineAt source hash ∧ call.line ≤ line

/-- The line of a position is not behind that of a later one. -/
theorem lineAt_le {source : Bytes} {position later : Nat} (hle : position ≤ later) :
    lineAt source position ≤ lineAt source later :=
  Nat.add_le_add_left (newlines_infix_le (List.take_prefix_take_left hle).isInfix) 1

/-- A call that is judged and kept is reported where it stands. -/
theorem CallSite.Judged.located {source : Bytes} {site : CallSite} {call : KeptCall}
    (hjudged : site.Judged 1 source) (hkept : site.kept? 1 source = some call) :
    Located source call site.position := by
  obtain ⟨position, builtin, verdict, around⟩ := site
  cases verdict with
  | ok list => cases hkept
  | error reason =>
    cases hkept
    refine ⟨hjudged.name, rfl, ?_⟩
    rintro line rfl
    obtain ⟨gap, list, hash, htail, hopened, hless, hhash, hline⟩ := hjudged.directive line rfl
    obtain ⟨inner, hdrop, hgap, hsplit⟩ := hjudged.exists_inner htail
    dsimp only at hdrop hopened
    have hle : position ≤ hash := by omega
    exact ⟨gap, inner, list, hash, hdrop, hgap, hsplit, hopened, hless, hhash, hline,
      (lineAt_le hle).trans_eq hline.symm⟩

/-- The calls that are kept among judged ones stand at positions of those. -/
theorem exists_positions_of_judged {source : Bytes} {sites : List CallSite}
    (hjudged : ∀ site ∈ sites, site.Judged 1 source) :
    ∃ positions, positions.Sublist (sites.map CallSite.position) ∧
      List.Forall₂ (Located source) (sites.filterMap (CallSite.kept? 1 source)) positions := by
  induction sites with
  | nil => exact ⟨[], .slnil, .nil⟩
  | cons site sites ih =>
    obtain ⟨hsite, hsites⟩ := List.forall_mem_cons.mp hjudged
    obtain ⟨positions, hsublist, hlocated⟩ := ih hsites
    cases hkept : site.kept? 1 source with
    | none =>
      rw [List.filterMap_cons_none hkept, List.map_cons]
      exact ⟨positions, hsublist.cons _, hlocated⟩
    | some call =>
      rw [List.filterMap_cons_some hkept, List.map_cons]
      exact ⟨site.position :: positions, hsublist.cons_cons _,
        .cons (hsite.located hkept) hlocated⟩

/-- The kept calls of a report stand at positions of the source from left to right, each on the
line that is reported, and a directive that is reported stands in the argument list of its call,
on the line that is reported. -/
theorem exists_positions_kept (session : Session) (source : Bytes) :
    ∃ positions : List Nat, positions.Pairwise (· < ·) ∧
      List.Forall₂ (Located source) (session.normalize source).1.report.kept positions := by
  obtain ⟨hsites, -⟩ := sitesBetween_callSites session source
  obtain ⟨positions, hsublist, hlocated⟩ := exists_positions_of_judged hsites.judged
  rw [hsites.kept]
  exact ⟨positions, (List.pairwise_map.mpr hsites.sorted).sublist hsublist, hlocated⟩

end PlainSync.Source
