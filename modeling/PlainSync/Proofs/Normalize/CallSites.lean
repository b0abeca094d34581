import PlainSync.Proofs.Normalize.Accounting
import PlainSync.Proofs.Source.Exchange

/-!
# The calls that are decided about

Every call that an outline keeps or replaces, at whatever depth, with its place in the source and
with the arguments around it. The report is what the verdicts on these calls say, and the verdict
on a call says what the argument list is that its parenthesis opens in the source.
-/

namespace PlainSync.Source

open Bytes

/-- A call that is kept or replaced. -/
structure CallSite where
  /-- Where the name of the built-in begins. -/
  position : Nat
  builtin : Builtin
  /-- The arguments if the call is replaced, else the reason to keep it. -/
  verdict : Except KeepReason ArgumentList
  /-- The arguments of replaced calls that it stands in, with the calls in them replaced. The
  innermost one comes first. -/
  around : List Bytes
  deriving DecidableEq

namespace CallSite

/-- The same call inside one more argument. -/
def inside (site : CallSite) (rendered : Bytes) : CallSite :=
  { site with around := site.around ++ [rendered] }

/-- The same call in a text that has `count` more bytes at its front. -/
def shift (count : Nat) (site : CallSite) : CallSite :=
  { site with position := count + site.position }

/-- What stands behind the name of the built-in up to the closing parenthesis: the white space, and
the argument list that its parenthesis opens. -/
def tail? (source : Bytes) (site : CallSite) : Option (Bytes × ArgumentList) := do
  let (_, gap, inner) ← opening? (.word site.builtin.spelling)
    (source.drop (site.position + site.builtin.spelling.length))
  let list ← splitArguments? 0 inner
  return (gap, list)

/-- The entry of a report for a call that is kept in a source whose first line is `first`. -/
def kept? (first : Nat) (source : Bytes) (site : CallSite) : Option KeptCall :=
  match site.verdict with
  | .error reason => some ⟨first + newlines (source.take site.position), site.builtin, reason⟩
  | .ok _ => none

/-- The entry of a report for a call that is replaced. -/
def replaced? (site : CallSite) : Option Builtin :=
  match site.verdict with
  | .ok _ => some site.builtin
  | .error _ => none

/-- A verdict on a call that stands in a source whose first line is `first` is about the argument
list that it has there. -/
structure Judged (first : Nat) (source : Bytes) (site : CallSite) : Prop where
  name : site.builtin.spelling <+: source.drop site.position
  replaced : ∀ list, site.verdict = .ok list →
    ∃ gap behind, site.tail? source = some (gap, list.inFrontOf behind) ∧
      site.builtin.operandCount ≤ list.arguments.length
  arity : ∀ expected found, site.verdict = .error (.arity expected found) →
    ∃ gap list, site.tail? source = some (gap, list) ∧
      expected = site.builtin.operandCount ∧ found = list.arguments.length ∧ found < expected
  /-- A directive that is reported begins between the parentheses. -/
  directive : ∀ line, site.verdict = .error (.directive line) →
    ∃ gap list hash, site.tail? source = some (gap, list) ∧
      site.position + site.builtin.spelling.length + gap.length + 1 ≤ hash ∧
      hash < site.position + site.builtin.spelling.length + gap.length + 1 + list.inside.length ∧
      source[hash]? = some Byte.hash ∧ line = first + newlines (source.take hash)

/-- A call is judged alike inside one more argument. -/
theorem judged_inside {first : Nat} {source : Bytes} {site : CallSite} {rendered : Bytes}
    (hjudged : site.Judged first source) : (site.inside rendered).Judged first source :=
  ⟨hjudged.name, hjudged.replaced, hjudged.arity, hjudged.directive⟩

/-- The parts of a source from the name of a call on. -/
theorem Judged.exists_inner {first : Nat} {source gap : Bytes} {site : CallSite}
    {list : ArgumentList} (hjudged : site.Judged first source)
    (htail : site.tail? source = some (gap, list)) :
    ∃ inner, source.drop site.position =
        site.builtin.spelling ++ gap ++ Byte.openParen :: inner ∧
      (∀ b ∈ gap, Byte.isWhiteSpace b) ∧ splitArguments? 0 inner = some list := by
  obtain ⟨behind, hname⟩ := hjudged.name
  obtain ⟨⟨builtin, gap', inner⟩, hopening, hfound⟩ := Option.bind_eq_some_iff.mp htail
  obtain ⟨list', hsplit, hlist⟩ := Option.bind_eq_some_iff.mp hfound
  cases hlist
  obtain ⟨-, hbehind, hgap⟩ := opening?_eq_some.mp hopening
  rw [← List.drop_drop, ← hname, List.drop_left] at hbehind
  refine ⟨inner, ?_, hgap, hsplit⟩
  rw [← hname, hbehind, List.append_assoc]

end CallSite

/-! ## The calls of an outline -/

mutual

/-- The calls of a piece whose text begins at `offset`, the next free site number being `number`. -/
def Piece.sites (number offset : Nat) : Piece → List CallSite
  | .verbatim _ => []
  | .kept builtin _ reason => [⟨offset, builtin, .error reason, []⟩]
  | .call builtin gap list operands =>
    ⟨offset, builtin, .ok list, []⟩ ::
      sitesOfOperands number (offset + builtin.spelling.length + gap.length + 1) operands

/-- The calls of an outline, likewise. -/
def sitesOf (number offset : Nat) : List Piece → List CallSite
  | [] => []
  | piece :: more =>
    piece.sites number offset ++
      sitesOf (piece.render number).2 (offset + piece.source.length) more

/-- The calls among the operands of a call, between two of which a comma stands. -/
def sitesOfOperands (number offset : Nat) : List (List Piece) → List CallSite
  | [] => []
  | operand :: more =>
    (sitesOf number offset operand).map (·.inside (renderPieces number operand).1) ++
      sitesOfOperands (renderPieces number operand).2
        (offset + (operand.flatMap Piece.source).length + 1) more

end

/-- Calls are replaced alike inside one more argument. -/
theorem filterMap_replaced?_inside (rendered : Bytes) (sites : List CallSite) :
    (sites.map (·.inside rendered)).filterMap CallSite.replaced? =
      sites.filterMap CallSite.replaced? := by
  rw [List.filterMap_map]
  rfl

mutual

/-- The calls of a piece that are replaced are those with such a verdict. -/
theorem Piece.expanded_perm (piece : Piece) (number offset : Nat) :
    piece.expanded.Perm ((piece.sites number offset).filterMap CallSite.replaced?) := by
  cases piece with
  | verbatim text => exact .refl _
  | kept builtin line reason => exact .refl _
  | call builtin gap list operands =>
    refine (List.perm_append_singleton builtin _).trans ?_
    exact (expandedOperands_perm operands _ _).cons builtin

/-- The calls of an outline that are replaced are those with such a verdict. -/
theorem expandedPieces_perm (pieces : List Piece) (number offset : Nat) :
    (expandedPieces pieces).Perm ((sitesOf number offset pieces).filterMap CallSite.replaced?) := by
  cases pieces with
  | nil => exact .refl _
  | cons piece more =>
    rw [expandedPieces, sitesOf, List.filterMap_append]
    exact (piece.expanded_perm _ _).append (expandedPieces_perm more _ _)

/-- The calls that are replaced are reported, inner calls before those around them. -/
theorem expandedOperands_perm (operands : List (List Piece)) (number offset : Nat) :
    (expandedOperands operands).Perm
      ((sitesOfOperands number offset operands).filterMap CallSite.replaced?) := by
  cases operands with
  | nil => exact .refl _
  | cons operand more =>
    rw [expandedOperands, sitesOfOperands, List.filterMap_append, filterMap_replaced?_inside]
    exact (expandedPieces_perm operand _ _).append (expandedOperands_perm more _ _)

end

/-- The calls of a source that a session decides about, if normalization is switched on. -/
def callSites (session : Session) (source : Bytes) : List CallSite :=
  if session.config.normalizeAtomics then sitesOf session.site 0 (outline 1 [] source) else []

/-! ## Verdicts on calls of a source -/

/-- A call that is kept for its arguments has a closing parenthesis and fewer than it needs. -/
theorem arity_of_judge {builtin : Builtin} {line expected found : Nat} {before inner : Bytes}
    (hjudge : judge builtin line before inner = .error (.arity expected found)) :
    ∃ list, splitArguments? 0 inner = some list ∧ expected = builtin.operandCount ∧
      found = list.arguments.length ∧ found < expected := by
  unfold judge at hjudge
  split at hjudge
  · cases hjudge
  · next list hsplit =>
    split at hjudge
    · cases hjudge
    · split at hjudge
      · next hfewer =>
        cases hjudge
        exact ⟨list, hsplit, rfl, rfl, hfewer⟩
      · cases hjudge

/-- A directive that is reported is the one that is found in the argument list. -/
theorem directive_of_judge {builtin : Builtin} {line directiveLine : Nat} {before inner : Bytes}
    (hjudge : judge builtin line before inner = .error (.directive directiveLine)) :
    ∃ list offset, splitArguments? 0 inner = some list ∧ offset < list.inside.length ∧
      inner[offset]? = some Byte.hash ∧ directiveLine = line + newlines (inner.take offset) := by
  unfold judge at hjudge
  split at hjudge
  · cases hjudge
  · next list hsplit =>
    split at hjudge
    · next offset hfound =>
      obtain ⟨hless, hhash⟩ := lt_and_getElem?_of_findDirective? hfound
      cases hjudge
      exact ⟨list, offset, hsplit, hless, hhash, rfl⟩
    · split at hjudge <;> cases hjudge

section Sites

variable {source before rest behind gap inner : Bytes} {b : UInt8} {lexeme : Lexeme}
  {builtin : Builtin} {line first : Nat}

/-- A call of a text has the argument list there that it has in a part. -/
theorem CallSite.tail?_shift {part : Bytes} {site : CallSite} {list : ArgumentList}
    (htail : site.tail? part = some (gap, list)) (front back : Bytes) :
    (site.shift front.length).tail? (front ++ part ++ back) =
      some (gap, list.inFrontOf (list.behind ++ back)) := by
  obtain ⟨⟨builtin, gap', inner⟩, hopening, hfound⟩ := Option.bind_eq_some_iff.mp htail
  obtain ⟨list', hsplit, hlist⟩ := Option.bind_eq_some_iff.mp hfound
  cases hlist
  obtain ⟨hword, hinner, hgap⟩ := opening?_eq_some.mp hopening
  have hdrop : (front ++ part ++ back).drop (front.length + site.position +
      site.builtin.spelling.length) = gap ++ Byte.openParen :: (inner ++ back) := by
    have hpart : site.position + site.builtin.spelling.length ≤ part.length := by
      have hlength := congrArg List.length hinner
      simp only [List.length_drop, List.length_append, List.length_cons] at hlength
      omega
    rw [Nat.add_assoc, List.append_assoc, List.drop_length_add_append,
      List.drop_append_of_le_length hpart, hinner, List.append_assoc, List.cons_append]
  have hopened : opening? (.word site.builtin.spelling)
      (gap ++ Byte.openParen :: (inner ++ back)) = some (builtin, gap, inner ++ back) :=
    opening?_eq_some.mpr ⟨hword, rfl, hgap⟩
  have hexchanged := splitArguments?_exchange hsplit (list.behind ++ back)
  have hclosed : list.closed (list.behind ++ back) = inner ++ back := by
    rw [closed_of_splitArguments? hsplit]
    simp [ArgumentList.closed]
  rw [hclosed] at hexchanged
  simp only [CallSite.tail?, CallSite.shift, hdrop, hopened, Option.bind_eq_bind,
    Option.bind_some, hexchanged]
  rfl

/-- The verdict on a call of a part of a source is about its argument list in the source. -/
theorem judged_of_judge {front back : Bytes} {verdict : Except KeepReason ArgumentList}
    (hnext : nextLexeme before b rest = (lexeme, behind))
    (hopening : opening? lexeme behind = some (builtin, gap, inner))
    (hjudge : judge builtin (line + newlines gap)
      (Byte.openParen :: gap.reverse ++ lexeme.text.reverse ++ before) inner = verdict)
    (hsource : source = front ++ b :: rest ++ back) (hline : line = first + newlines front) :
    CallSite.Judged first source ⟨front.length, builtin, verdict, []⟩ := by
  have hwhole := append_of_nextLexeme hnext
  have hname := newlines_of_opening hopening
  have htail {list : ArgumentList} (hsplit : splitArguments? 0 inner = some list) :
      CallSite.tail? source ⟨front.length, builtin, verdict, []⟩ =
        some (gap, list.inFrontOf (list.behind ++ back)) := by
    have hpart : CallSite.tail? (b :: rest) ⟨0, builtin, verdict, []⟩ = some (gap, list) := by
      obtain ⟨rfl, -, -⟩ := opening?_eq_some.mp hopening
      rw [CallSite.tail?, ← hwhole, Nat.zero_add, Lexeme.text, List.drop_left, hopening]
      simp only [Option.bind_eq_bind, Option.bind_some, hsplit]
      rfl
    rw [hsource]
    exact CallSite.tail?_shift hpart front back
  obtain ⟨rfl, rfl, -⟩ := opening?_eq_some.mp hopening
  constructor
  case name =>
    rw [hsource, List.append_assoc, List.drop_left, ← hwhole, List.append_assoc]
    exact List.prefix_append _ _
  case replaced =>
    rintro list rfl
    exact ⟨_, _, htail (split_of_judge hjudge).1, operandCount_le_of_judge hjudge⟩
  case arity =>
    rintro expected found rfl
    obtain ⟨list, hsplit, hcount⟩ := arity_of_judge hjudge
    exact ⟨_, _, htail hsplit, hcount⟩
  case directive =>
    rintro directiveLine rfl
    obtain ⟨list, offset, hsplit, hless, hhash, rfl⟩ := directive_of_judge hjudge
    let opened := front ++ (builtin.spelling ++ gap ++ [Byte.openParen])
    have hopened : source = opened ++ (inner ++ back) := by
      rw [hsource, ← hwhole]
      simp [opened, Lexeme.text]
    have hlength : opened.length =
        front.length + builtin.spelling.length + gap.length + 1 := by
      simp only [opened, List.length_append, List.length_cons, List.length_nil]
      omega
    have hin : offset < inner.length := by
      rw [closed_of_splitArguments? hsplit, ArgumentList.closed_eq_append]
      simp only [List.length_append]
      omega
    have hlines : newlines opened = newlines front + newlines gap := by
      have hparen : newlines [Byte.openParen] = 0 := rfl
      change newlines builtin.spelling = 0 at hname
      simp only [opened, newlines_append, hname, hparen]
      omega
    refine ⟨gap, _, opened.length + offset, htail hsplit, ?_, ?_, ?_, ?_⟩
    · rw [hlength]
      exact Nat.le_add_right _ _
    · rw [hlength]
      exact Nat.add_lt_add_left hless _
    · rw [hopened, List.getElem?_append_right (Nat.le_add_right _ _), Nat.add_sub_cancel_left,
        List.getElem?_append_left hin, hhash]
    · rw [hopened, List.take_length_add_append, newlines_append, hlines,
        List.take_append_of_le_length (Nat.le_of_lt hin), hline]
      omega

end Sites

/-- Calls between two positions of a source whose first line is `first`, and the calls of a report
that are kept there. -/
structure SitesBetween (first : Nat) (source : Bytes) (start stop : Nat) (kept : List KeptCall)
    (sites : List CallSite) : Prop where
  sorted : sites.Pairwise (·.position < ·.position)
  judged : ∀ site ∈ sites, site.Judged first source
  kept : kept = sites.filterMap (CallSite.kept? first source)
  inside : ∀ site ∈ sites, start ≤ site.position ∧ site.position < stop

namespace SitesBetween

variable {source : Bytes} {first start middle middle' stop : Nat} {kept kept' : List KeptCall}
  {site : CallSite} {sites sites' : List CallSite}

/-- No calls stand between any positions. -/
theorem nil (first : Nat) (source : Bytes) (start stop : Nat) :
    SitesBetween first source start stop [] [] where
  sorted := .nil
  judged := nofun
  kept := rfl
  inside := nofun

/-- Calls stand one behind the other. -/
theorem append (hfront : SitesBetween first source start middle kept sites)
    (hback : SitesBetween first source middle' stop kept' sites') (hstart : start ≤ middle)
    (hmiddle : middle ≤ middle') (hstop : middle' ≤ stop) :
    SitesBetween first source start stop (kept ++ kept') (sites ++ sites') where
  sorted := by
    refine List.pairwise_append.mpr ⟨hfront.sorted, hback.sorted, ?_⟩
    intro site hsite other hother
    have hleft := hfront.inside site hsite
    have hright := hback.inside other hother
    omega
  judged := List.forall_mem_append.mpr ⟨hfront.judged, hback.judged⟩
  kept := by rw [List.filterMap_append, hfront.kept, hback.kept]
  inside := by
    refine List.forall_mem_append.mpr ⟨fun site hsite => ?_, fun site hsite => ?_⟩
    · have hleft := hfront.inside site hsite
      omega
    · have hright := hback.inside site hsite
      omega

/-- A call in front of the others. -/
theorem cons (hsite : site.Judged first source)
    (hbehind : SitesBetween first source middle stop kept sites) (hstart : site.position < middle)
    (hstop : middle ≤ stop) :
    SitesBetween first source site.position stop ((site.kept? first source).toList ++ kept)
      (site :: sites) where
  sorted := by
    refine .cons (fun other hother => ?_) hbehind.sorted
    have hlater := hbehind.inside other hother
    omega
  judged := List.forall_mem_cons.mpr ⟨hsite, hbehind.judged⟩
  kept := by
    rw [List.filterMap_cons, hbehind.kept]
    cases site.kept? first source <;> rfl
  inside := by
    refine List.forall_mem_cons.mpr ⟨by omega, fun other hother => ?_⟩
    have hlater := hbehind.inside other hother
    omega

/-- Calls inside one more argument. -/
theorem map_inside (hsites : SitesBetween first source start stop kept sites) (rendered : Bytes) :
    SitesBetween first source start stop kept (sites.map (·.inside rendered)) where
  sorted := List.pairwise_map.mpr hsites.sorted
  judged := List.forall_mem_map.mpr fun site hsite =>
    CallSite.judged_inside (hsites.judged site hsite)
  kept := by
    rw [hsites.kept, List.filterMap_map]
    rfl
  inside := List.forall_mem_map.mpr hsites.inside

end SitesBetween

/-- The calls of every outline of a part of a source stand where the part stands, and those that are
kept are reported. -/
def Surveyed (source : Bytes) (line : Nat) (before text : Bytes) : Prop :=
  ∀ first front back, source = front ++ text ++ back → line = first + newlines front → ∀ number,
    SitesBetween first source front.length (front.length + text.length)
      (keptInPieces (outline line before text))
      (sitesOf number front.length (outline line before text))

section Arguments

variable {source : Bytes} {first : Nat}

/-- The arguments of a call stand one behind the other, with a comma between two. -/
theorem sitesBetween_stretches {argument : Bytes} {more : List Bytes} (count line : Nat)
    (front back : Bytes)
    (hsurveyed : ∀ other ∈ (argument :: more).take count, ∀ line, Surveyed source line [] other)
    (hsource : source = front ++ (argument ++ more.flatMap (Byte.comma :: ·)) ++ back)
    (hline : line = first + newlines front) (number : Nat) :
    SitesBetween first source front.length
      (front.length + (argument ++ more.flatMap (Byte.comma :: ·)).length)
      (keptInOperands (outlineOperands line ((argument :: more).take count)))
      (sitesOfOperands number front.length
        (outlineOperands line ((argument :: more).take count))) := by
  induction more generalizing argument count line front number with
  | nil =>
    cases count with
    | zero =>
      rw [List.take_zero, outlineOperands]
      exact .nil first source _ _
    | succ count =>
      have hsites := hsurveyed argument List.mem_cons_self line first front back
        (by simpa using hsource) hline number
      rw [List.take_succ_cons, List.take_nil, outlineOperands, outlineOperands]
      simp only [keptInOperands, sitesOfOperands, List.append_nil, List.flatMap_nil]
      exact hsites.map_inside _
  | cons second more ih =>
    cases count with
    | zero =>
      rw [List.take_zero, outlineOperands]
      exact .nil first source _ _
    | succ count =>
      rw [List.flatMap_cons] at hsource ⊢
      have hfirst := hsurveyed argument List.mem_cons_self line first front
        (Byte.comma :: second ++ more.flatMap (Byte.comma :: ·) ++ back)
        (by rw [hsource]; simp only [List.append_assoc]) hline number
      have hmore := ih count (line + newlines argument) (front ++ argument ++ [Byte.comma])
        (fun other hother => hsurveyed other (List.mem_cons_of_mem _ hother))
        (by rw [hsource]; simp only [List.append_assoc, List.cons_append, List.nil_append])
        (by
          have hcomma : newlines [Byte.comma] = 0 := rfl
          simp only [newlines_append, hcomma, hline]
          omega)
        (renderPieces number (outline line [] argument)).2
      have hstart : (front ++ argument ++ [Byte.comma]).length =
          front.length + argument.length + 1 := by
        simp only [List.length_append, List.length_cons, List.length_nil]
      have hstop : front.length + (argument ++ (Byte.comma :: second ++
            more.flatMap (Byte.comma :: ·))).length =
          front.length + argument.length + 1 +
            (second ++ more.flatMap (Byte.comma :: ·)).length := by
        simp only [List.length_append, List.length_cons]
        omega
      rw [hstart] at hmore
      rw [hstop, List.take_succ_cons, outlineOperands, keptInOperands, sitesOfOperands,
        source_outline]
      exact (hfirst.map_inside _).append hmore (Nat.le_add_right _ _) (Nat.le_add_right _ _)
        (Nat.le_add_right _ _)

/-- The calls in the arguments of a call stand between its parentheses. -/
theorem sitesBetween_arguments {list : ArgumentList} (count line : Nat) (front back : Bytes)
    (hsurveyed : ∀ argument ∈ list.arguments.take count, ∀ line, Surveyed source line [] argument)
    (hsource : source = front ++ list.inside ++ back) (hline : line = first + newlines front)
    (number : Nat) :
    SitesBetween first source front.length (front.length + list.inside.length)
      (keptInOperands (outlineOperands line (list.arguments.take count)))
      (sitesOfOperands number front.length
        (outlineOperands line (list.arguments.take count))) := by
  unfold ArgumentList.arguments at hsurveyed ⊢
  split at hsurveyed
  · next hblank =>
    rw [if_pos hblank, List.take_nil, outlineOperands]
    exact .nil first source _ _
  · next hblank =>
    rw [if_neg hblank]
    exact sitesBetween_stretches count line front back hsurveyed hsource hline number

end Arguments

section Outline

variable {source before rest behind gap inner : Bytes} {b : UInt8} {lexeme : Lexeme}
  {builtin : Builtin} {line first : Nat}

/-- The calls behind the first lexeme of a text. -/
theorem Surveyed.sites_behind {front back : Bytes}
    (hnext : nextLexeme before b rest = (lexeme, behind))
    (hbehind : Surveyed source (line + newlines lexeme.text) (lexeme.text.reverse ++ before) behind)
    (hsource : source = front ++ b :: rest ++ back) (hline : line = first + newlines front)
    (number : Nat) :
    SitesBetween first source (front.length + lexeme.text.length)
      (front.length + (b :: rest).length)
      (keptInPieces
        (outline (line + newlines lexeme.text) (lexeme.text.reverse ++ before) behind))
      (sitesOf number (front.length + lexeme.text.length)
        (outline (line + newlines lexeme.text) (lexeme.text.reverse ++ before) behind)) := by
  have hwhole := append_of_nextLexeme hnext
  have hsites := hbehind first (front ++ lexeme.text) back
    (by rw [hsource, ← hwhole]; simp only [List.append_assoc])
    (by rw [newlines_append, hline, Nat.add_assoc]) number
  have hstop : (front ++ lexeme.text).length + behind.length =
      front.length + (b :: rest).length := by
    rw [← hwhole]
    simp only [List.length_append]
    omega
  rwa [hstop, List.length_append] at hsites

/-- A lexeme that is copied is no call. -/
theorem Surveyed.copied (hnext : nextLexeme before b rest = (lexeme, behind))
    (hopening : opening? lexeme behind = none)
    (hbehind : Surveyed source (line + newlines lexeme.text) (lexeme.text.reverse ++ before)
      behind) :
    Surveyed source line before (b :: rest) := by
  intro first front back hsource hline number
  have hsites := hbehind.sites_behind hnext hsource hline number
  have hwhole := congrArg List.length (append_of_nextLexeme hnext)
  rw [List.length_append] at hwhole
  rw [outline_copied hnext hopening]
  exact (SitesBetween.nil first source _ _).append hsites (Nat.le_refl _) (Nat.le_add_right _ _)
    (by omega)

/-- A call that is kept stands in front of the others. -/
theorem Surveyed.kept {reason : KeepReason}
    (hnext : nextLexeme before b rest = (lexeme, behind))
    (hopening : opening? lexeme behind = some (builtin, gap, inner))
    (hjudge : judge builtin (line + newlines gap)
      (Byte.openParen :: gap.reverse ++ lexeme.text.reverse ++ before) inner = .error reason)
    (hbehind : Surveyed source line (lexeme.text.reverse ++ before) behind) :
    Surveyed source line before (b :: rest) := by
  intro first front back hsource hline number
  have hlines := newlines_of_opening hopening
  have hpos := length_text_pos_of_nextLexeme hnext
  have hwhole := congrArg List.length (append_of_nextLexeme hnext)
  rw [List.length_append] at hwhole
  have hname := (text_of_opening hopening).symm
  rw [← Nat.add_zero line, ← hlines] at hbehind
  have hsites := hbehind.sites_behind hnext hsource hline number
  rw [hlines, Nat.add_zero] at hsites
  have hjudged := judged_of_judge hnext hopening hjudge hsource hline
  have hlineAt : first + newlines (source.take front.length) = line := by
    rw [hsource, List.append_assoc, List.take_left, hline]
  have hcons := hsites.cons hjudged (by dsimp only; omega) (by omega)
  rw [CallSite.kept?, hlineAt] at hcons
  rw [outline_kept hnext hopening hjudge, sitesOf, Piece.source, hname]
  exact hcons

/-- A call that is replaced stands in front of those in its arguments, and these in front of the
others. -/
theorem Surveyed.expanded {list : ArgumentList}
    (hnext : nextLexeme before b rest = (lexeme, behind))
    (hopening : opening? lexeme behind = some (builtin, gap, inner))
    (hjudge : judge builtin (line + newlines gap)
      (Byte.openParen :: gap.reverse ++ lexeme.text.reverse ++ before) inner = .ok list)
    (harguments : ∀ argument ∈ list.arguments.take builtin.operandCount, ∀ line,
      Surveyed source line [] argument)
    (hbehind : Surveyed source (line + newlines (callTail gap list))
      ((callTail gap list).reverse ++ lexeme.text.reverse ++ before) list.behind) :
    Surveyed source line before (b :: rest) := by
  intro first front back hsource hline number
  have hwhole := append_callTail hnext hopening hjudge
  have hname : newlines builtin.spelling = 0 :=
    newlines_eq_zero_of_all (by decide) joinsWord_of_mem_spelling
  have hparen : newlines [Byte.openParen] = 0 := rfl
  have htail : callTail gap list = gap ++ [Byte.openParen] ++ list.inside ++ [Byte.closeParen] := by
    simp [callTail]
  have hgapLine : line + newlines gap =
      first + newlines (front ++ builtin.spelling ++ gap ++ [Byte.openParen]) := by
    simp only [newlines_append, hname, hparen, hline]
    omega
  have hinside := sitesBetween_arguments builtin.operandCount (line + newlines gap)
    (front ++ builtin.spelling ++ gap ++ [Byte.openParen])
    ([Byte.closeParen] ++ list.behind ++ back) harguments
    (by rw [hsource, ← hwhole, htail]; simp only [List.append_assoc]) hgapLine number
  have hmore := hbehind first (front ++ builtin.spelling ++ callTail gap list) back
    (by rw [hsource, ← hwhole]; simp only [List.append_assoc])
    (by simp only [newlines_append, hname, hline]; omega)
  have hstart : (front ++ builtin.spelling ++ gap ++ [Byte.openParen]).length =
      front.length + builtin.spelling.length + gap.length + 1 := by
    simp only [List.length_append, List.length_cons, List.length_nil]
  have hmiddle : (front ++ builtin.spelling ++ callTail gap list).length =
      front.length + builtin.spelling.length + gap.length + 1 + list.inside.length + 1 := by
    rw [htail]
    simp only [List.length_append, List.length_cons, List.length_nil]
    omega
  have hstop : (front ++ builtin.spelling ++ callTail gap list).length + list.behind.length =
      front.length + (b :: rest).length := by
    rw [← hwhole]
    simp only [List.length_append]
    omega
  have hsource' : front.length + (builtin.spelling ++ callTail gap list).length =
      (front ++ builtin.spelling ++ callTail gap list).length := by
    simp only [List.length_append]
    omega
  have hjudged := judged_of_judge hnext hopening hjudge hsource hline
  rw [hstart] at hinside
  have hcall := hinside.cons hjudged (by dsimp only; omega) (Nat.le_add_right _ _)
  rw [outline_expanded hnext hopening hjudge, sitesOf, Piece.source, hsource', ← hstop]
  exact hcall.append (hmore _) (by dsimp only; omega) (by omega) (Nat.le_add_right _ _)

end Outline

/-- The calls of every outline stand where its text stands in a source. -/
theorem surveyed (source : Bytes) (line : Nat) (before text : Bytes) :
    Surveyed source line before text := by
  induction line, before, text using outline_induction with
  | nil line before =>
    intro first front back hsource hline number
    rw [outline]
    exact .nil first source _ _
  | copied hnext hopening hbehind => exact .copied hnext hopening hbehind
  | kept hnext hopening hjudge hbehind => exact .kept hnext hopening hjudge hbehind
  | expanded hnext hopening hjudge harguments hbehind =>
    exact .expanded hnext hopening hjudge harguments hbehind

/-- The report of a source is what is decided about its calls, which stand one behind the other. -/
theorem sitesBetween_callSites (session : Session) (source : Bytes) :
    SitesBetween 1 source 0 source.length (session.normalize source).1.report.kept
        (callSites session source) ∧
      (session.normalize source).1.report.expanded.Perm
        ((callSites session source).filterMap CallSite.replaced?) := by
  unfold callSites Session.normalize
  split
  · have hsites := surveyed source 1 [] source 1 [] [] (by simp) rfl session.site
    exact ⟨by simpa using hsites, expandedPieces_perm _ _ _⟩
  · exact ⟨.nil 1 source _ _, .refl _⟩

end PlainSync.Source
