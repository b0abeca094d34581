import PlainSync.Proofs.Normalize.NestedSites
import PlainSync.Proofs.Normalize.Operands
import PlainSync.Proofs.Normalize.Untouched
import PlainSync.Proofs.Source.Trimming

/-!
# The text of a kept call

A call that is kept is left as written from its name to its closing parenthesis, unless a call that
stands in it is replaced or a line comment is dropped from an argument that it stands in. What is
around it is the text around it in the source, up to the replaced calls: those beside it, and the
one that has the argument it stands in.
-/

namespace PlainSync.Source

open Bytes Reading

/-- A text is patched in front of a call and behind it. -/
theorem patch_append_cons (config : Config) {offset : Nat} (text : Bytes)
    {left right : List Replacement} {replacement : Replacement}
    (hoffset : ∀ other ∈ left ++ replacement :: right, offset ≤ other.position)
    (hapart : (left ++ replacement :: right).Pairwise fun first second =>
      first.position < second.position ∧ first.stop ≤ second.position) :
    patch config offset text (left ++ replacement :: right) =
      patch config offset (text.take (replacement.position - offset)) left ++
        replacement.text config ++
        patch config replacement.stop (text.drop (replacement.stop - offset)) right := by
  induction left generalizing offset text with
  | nil => rfl
  | cons head left ih =>
    obtain ⟨hbehind, hapart⟩ := List.pairwise_cons.mp hapart
    have hhead := hoffset head List.mem_cons_self
    have hlater := (hbehind replacement (by simp)).2
    have hstop := head.position_lt_stop
    have hend := replacement.position_lt_stop
    have htake : (text.take (replacement.position - offset)).take (head.position - offset) =
        text.take (head.position - offset) := by
      rw [List.take_take, Nat.min_eq_left (by omega)]
    have hinside : (text.drop (head.stop - offset)).take (replacement.position - head.stop) =
        (text.take (replacement.position - offset)).drop (head.stop - offset) := by
      rw [List.drop_take]
      congr 1
      omega
    have hrest : head.stop - offset + (replacement.stop - head.stop) =
        replacement.stop - offset := by omega
    rw [List.cons_append, patch, ih (text.drop (head.stop - offset))
      (fun other hother => (hbehind other hother).2) hapart, patch, htake, hinside,
      List.drop_drop, hrest]
    simp only [List.append_assoc]

/-! ## Frames -/

/-- What becomes of the text in front of a call that is kept at `position`, and of the text behind
it, the next free site number being `number`. The call is `written`. -/
inductive Framed (config : Config) (written : Bytes) :
    (source : Bytes) → (number position : Nat) → (front back : Bytes) → Prop where
  /-- The call stands between the replaced calls. -/
  | copied {source text : Bytes} {number position : Nat} {expanded : List Builtin}
      {left right : List Replacement}
      (hreplaces : Replaces config source 0 number text expanded (left ++ right))
      (hleft : ∀ replacement ∈ left, replacement.stop ≤ position)
      (hright : ∀ replacement ∈ right, position + written.length ≤ replacement.position)
      (hwritten : written <+: source.drop position) :
      Framed config written source number position
        (patch config 0 (source.take position) left)
        (patch config (position + written.length) (source.drop (position + written.length)) right)
  /-- The call stands in an argument of a replaced call. -/
  | operand {source text argument front back : Bytes} {number position : Nat}
      {expanded : List Builtin} {left right : List Replacement} {call : Replacement}
      {passed later : List Bytes} {before after : List Symbol}
      (hreplaces : Replaces config source 0 number text expanded (left ++ call :: right))
      (harguments : call.list.arguments.take call.builtin.operandCount =
        passed ++ argument :: later)
      (htemplate : template call.builtin = before ++ .slot (operandSlot passed.length) :: after)
      (hframed : Framed config written argument
        (Session.normalizeAll ⟨config, call.site⟩ passed).2.site position front back) :
      Framed config written source number
        (call.position + call.builtin.spelling.length + call.gap.length + 1 + outlineSize passed +
          position)
        (patch config 0 (source.take call.position) left ++
          fill (call.filled config) (call.names config) before ++ front.trimStart)
        (back.trimEnd ++ fill (call.filled config) (call.names config) after ++
          call.padding config ++ patch config call.stop (source.drop call.stop) right)

/-- No replaced call begins in the next `length` bytes from a call on, and no argument that it
stands in has a line comment. -/
structure CallSite.Undisturbed (site : CallSite) (sites : List CallSite) (length : Nat) :
    Prop where
  nested : ∀ other ∈ sites, other.replaced?.isSome →
    other.position < site.position ∨ site.position + length ≤ other.position
  comments : ∀ rendered ∈ site.around, withoutLineComments [] rendered.trim = rendered.trim

instance (site : CallSite) (sites : List CallSite) (length : Nat) :
    Decidable (site.Undisturbed sites length) :=
  decidable_of_iff
    ((∀ other ∈ sites, other.replaced?.isSome →
        other.position < site.position ∨ site.position + length ≤ other.position) ∧
      ∀ rendered ∈ site.around, withoutLineComments [] rendered.trim = rendered.trim)
    ⟨fun h => ⟨h.1, h.2⟩, fun h => ⟨h.nested, h.comments⟩⟩

/-- A call between the replaced calls is copied with the text around it. -/
theorem exists_framed_copied {config : Config} {source text written : Bytes}
    {number position : Nat} {expanded : List Builtin} {replacements : List Replacement}
    (hreplaces : Replaces config source 0 number text expanded replacements)
    (hwritten : written <+: source.drop position) (hsome : written ≠ [])
    (houtside : ∀ replacement ∈ replacements,
      replacement.stop ≤ position ∨ position + written.length ≤ replacement.position) :
    ∃ front back, text = front ++ written ++ back ∧
      Framed config written source number position front back := by
  have hpos := List.length_pos_of_ne_nil hsome
  have hlength := hwritten.length_le
  rw [List.length_drop] at hlength
  have hstop : position + written.length ≤ source.length := by omega
  obtain ⟨left, right, rfl, hleft, hright, hpatch⟩ := exists_patch_eq config
    (Nat.zero_le _) (Nat.le_add_right position written.length) hstop
    hreplaces.offset_le hreplaces.apart houtside
  have hcopied : (source.take (position + written.length)).drop position = written := by
    rw [List.drop_take, Nat.add_sub_cancel_left]
    exact (List.prefix_iff_eq_take.mp hwritten).symm
  refine ⟨_, _, ?_, .copied hreplaces hleft hright hwritten⟩
  rw [hreplaces.text, hpatch, hcopied, List.drop_zero]

/-- A call in an argument is copied with the argument into the expansion of the call that has the
argument. -/
theorem exists_framed_operand {config : Config} {source text written argument front back : Bytes}
    {number position : Nat} {expanded : List Builtin} {replacements : List Replacement}
    {call : Replacement} {passed later : List Bytes}
    (hreplaces : Replaces config source 0 number text expanded replacements)
    (hcall : call ∈ replacements)
    (harguments : call.list.arguments.take call.builtin.operandCount =
      passed ++ argument :: later)
    (hrendered : operandText ((Session.normalizeAll ⟨config, call.site⟩ passed).2.normalize
      argument).1.text = front.trimStart ++ written ++ back.trimEnd)
    (hframed : Framed config written argument
      (Session.normalizeAll ⟨config, call.site⟩ passed).2.site position front back) :
    ∃ front' back', text = front' ++ written ++ back' ∧
      Framed config written source number
        (call.position + call.builtin.spelling.length + call.gap.length + 1 + outlineSize passed +
          position) front' back' := by
  obtain ⟨left, right, rfl⟩ := List.append_of_mem hcall
  have hindex : passed.length < call.builtin.operandCount := by
    have hlength := congrArg List.length harguments
    simp only [List.length_take, List.length_append, List.length_cons] at hlength
    omega
  obtain ⟨before, after, htemplate⟩ := List.append_of_mem (operandSlot_mem_template hindex)
  have hslot : (operandSlot passed.length).text (call.filled config) (call.names config) =
      front.trimStart ++ written ++ back.trimEnd := by
    rw [Replacement.filled, text_operandSlot, List.getElem?_map, Replacement.operands, harguments,
      getElem?_normalizeAll]
    exact hrendered
  refine ⟨_, _, ?_, .operand hreplaces harguments htemplate hframed⟩
  rw [hreplaces.text, List.drop_zero,
    patch_append_cons config source hreplaces.offset_le hreplaces.apart,
    Replacement.text_eq_fill (hreplaces.expands call hcall), htemplate]
  simp only [fill, List.flatMap_append, List.flatMap_cons, Symbol.text, hslot, Nat.sub_zero,
    List.append_assoc]

/-- An operand without line comments is trimmed only. -/
theorem operandText_eq_trim {rendered : Bytes}
    (hcomments : withoutLineComments [] rendered.trim = rendered.trim) :
    operandText rendered = rendered.trim := by
  rw [operandText, hcomments, trim_trim]

/-- Trimming leaves a call that is written out. -/
theorem trim_of_written {builtin : Builtin} {gap : Bytes} {list : ArgumentList}
    (front back : Bytes) :
    (front ++ (builtin.spelling ++ callTail gap list) ++ back).trim =
      front.trimStart ++ (builtin.spelling ++ callTail gap list) ++ back.trimEnd := by
  have hhead : builtin.spelling.head? = some Byte.underscore := by
    cases builtin with
    | fetchAndOp update | opAndFetch update => cases update <;> decide +kernel
    | _ => decide +kernel
  have hfirst : ∀ pattern ∈ blankEncodings, Byte.underscore ∉ pattern := by decide +kernel
  have hlast : ∀ pattern ∈ blankEncodings, Byte.closeParen ∉ pattern := by decide +kernel
  refine trim_append hfirst hlast ?_ ?_ front back
  · rw [List.head?_append, hhead]
    rfl
  · rw [callTail, ← List.append_assoc, List.getLast?_concat]

/-- What a source is normalized to does not depend on the line on which it begins. -/
theorem text_normalize {session : Session} (henabled : session.config.normalizeAtomics = true)
    (line : Nat) (source : Bytes) :
    (session.normalize source).1.text =
      (renderPieces session.site (outline line [] source)).1 := by
  have halike := (outline_alike 1 [] source line).1 session.site
  simp only [Session.normalize, henabled, if_true, halike]

/-- A call that is kept and has a closing parenthesis is copied, at whatever depth it stands. -/
theorem exists_framed {config : Config} (henabled : config.normalizeAtomics = true)
    {source gap : Bytes} {line number : Nat} {site : CallSite} {reason : KeepReason}
    {list : ArgumentList} (hsite : site ∈ sitesOf number 0 (outline line [] source))
    (hkept : site.verdict = .error reason) (hreason : reason ≠ .unterminated)
    (htail : site.tail? source = some (gap, list))
    (hundisturbed : site.Undisturbed (sitesOf number 0 (outline line [] source))
      (site.builtin.spelling ++ callTail gap list).length) :
    ∃ front back, (renderPieces number (outline line [] source)).1 =
        front ++ (site.builtin.spelling ++ callTail gap list) ++ back ∧
      Framed config (site.builtin.spelling ++ callTail gap list) source number site.position
        front back := by
  -- An argument of a replaced call is shorter than the text that the call stands in.
  induction hsize : source.length using Nat.strong_induction_on
    generalizing source gap line number site list with
  | _ size ih =>
    subst hsize
    have hjudged (text : Bytes) (line number : Nat) (site : CallSite)
        (hsite : site ∈ sitesOf number 0 (outline line [] text)) : site.Judged line text :=
      (surveyed text line [] text line [] [] (by simp) rfl number).judged site hsite
    have hreplaces := replaces_outline henabled line [] source source number rfl (wordsEnd_nil _)
    rcases apart_or_inside hsite hkept with hapart | ⟨call, hcall, operands, hpiece, hmem, hsub⟩
    · refine exists_framed_copied hreplaces ((hjudged source line number site hsite).written htail)
        (by simp [callTail]) fun replacement hreplacement => ?_
      have hnested := hundisturbed.nested _ (mem_sitesOf_of_mem_replacementsOf hreplacement) rfl
      have hbeside := hapart replacement hreplacement
      dsimp only at hnested
      omega
    · obtain ⟨line', rfl⟩ := exists_outlineOperands hpiece
      obtain ⟨passed, argument, later, line'', number', inner, harguments, hnumber, hinner, rfl,
        hothers⟩ := exists_operand_of_mem hmem
      obtain ⟨front, back, hsource, hlength⟩ :=
        exists_argument_eq (hreplaces.stands call hcall) harguments
      obtain ⟨gap', list', htail'⟩ :=
        (hjudged argument line'' number' inner hinner).exists_tail hkept hreason
      have hshifted := CallSite.tail?_shift htail' front back
      rw [← hsource, hlength] at hshifted
      obtain ⟨rfl, rfl⟩ := Prod.mk.inj (Option.some.inj (hshifted.symm.trans htail))
      have hless : argument.length < source.length := by
        rw [hsource]
        simp only [List.length_append]
        omega
      have hinside : inner.Undisturbed (sitesOf number' 0 (outline line'' [] argument))
          (inner.builtin.spelling ++ callTail gap' list').length := by
        refine ⟨fun other hother hreplaced => ?_, fun rendered hrendered =>
          hundisturbed.comments rendered (List.mem_append_left _ hrendered)⟩
        have hnested := hundisturbed.nested _ (hsub (hothers other hother)) hreplaced
        have hwritten : callTail gap' (list'.inFrontOf (list'.behind ++ back)) =
            callTail gap' list' := rfl
        simp only [CallSite.inside, CallSite.shift, hwritten] at hnested
        omega
      obtain ⟨front', back', hrendered, hframed⟩ := ih argument.length hless hinner hkept htail'
        hinside rfl
      have hsession : number' = (Session.normalizeAll ⟨config, call.site⟩ passed).2.site := by
        rw [hnumber, (normalizeAll_arguments henabled line' call.site passed).1]
      have hconfig : (Session.normalizeAll ⟨config, call.site⟩ passed).2.config.normalizeAtomics =
          true := by
        rw [config_normalizeAll]
        exact henabled
      have hcomments := hundisturbed.comments _
        (List.mem_append_right _ (List.mem_singleton_self _))
      refine exists_framed_operand hreplaces hcall harguments ?_ (hsession ▸ hframed)
      rw [text_normalize hconfig line'', ← hsession, operandText_eq_trim hcomments, hrendered]
      exact trim_of_written front' back'

/-- The report lists the calls that are kept. A call that is kept for its arguments or for a
directive has a closing parenthesis, and unless replaced calls stand in it or line comments around
it, it is copied from its name to that parenthesis. -/
theorem exists_text_of_kept (session : Session) (source : Bytes) :
    SitesBetween 1 source 0 source.length (session.normalize source).1.report.kept
        (callSites session source) ∧
      ∀ site ∈ callSites session source, ∀ reason, site.verdict = .error reason →
        reason ≠ .unterminated →
          ∃ gap list, site.tail? source = some (gap, list) ∧
            (site.Undisturbed (callSites session source)
                (site.builtin.spelling ++ callTail gap list).length →
              ∃ front back, (session.normalize source).1.text =
                  front ++ (site.builtin.spelling ++ callTail gap list) ++ back ∧
                Framed session.config (site.builtin.spelling ++ callTail gap list) source
                  session.site site.position front back) := by
  have hsites := (sitesBetween_callSites session source).1
  refine ⟨hsites, fun site hsite reason hkept hreason => ?_⟩
  obtain ⟨gap, list, htail⟩ := (hsites.judged site hsite).exists_tail hkept hreason
  refine ⟨gap, list, htail, fun hundisturbed => ?_⟩
  unfold callSites at hsite hundisturbed
  split at hsite
  · next henabled =>
    rw [if_pos henabled] at hundisturbed
    rw [text_normalize henabled 1]
    exact exists_framed henabled hsite hkept hreason htail hundisturbed
  · cases hsite

/-- A call with too few arguments, one of which is such a call, in an argument of another call. -/
def heldCall : Bytes :=
  ofString "__sync_lock_release( f(__sync_fetch_and_add(__sync_lock_release()), 1) /* p */)"

/-- A call with too few arguments stands as it was, with the call in it. -/
theorem exists_text_of_heldCall :
    ∃ front back, (normalize {} heldCall).text =
        front ++ ofString "__sync_fetch_and_add(__sync_lock_release())" ++ back ∧
      Framed {} (ofString "__sync_fetch_and_add(__sync_lock_release())") heldCall 0 23 front
        back := by
  obtain ⟨-, hkept⟩ := exists_text_of_kept { config := {} } heldCall
  have hsite : ⟨23, .fetchAndOp .add, .error (.arity 2 1),
      [ofString " f(__sync_fetch_and_add(__sync_lock_release()), 1) /* p */"]⟩ ∈
      callSites { config := {} } heldCall := by decide +kernel
  obtain ⟨gap, list, htail, hframed⟩ := hkept _ hsite _ rfl (by decide)
  have hlist : CallSite.tail? heldCall ⟨23, .fetchAndOp .add, .error (.arity 2 1),
        [ofString " f(__sync_fetch_and_add(__sync_lock_release()), 1) /* p */"]⟩ =
      some ([], ⟨ofString "__sync_lock_release()", [], ofString ", 1) /* p */)"⟩) := by
    decide +kernel
  cases htail.symm.trans hlist
  exact hframed (by decide +kernel)

/-- A call that is kept, with a call in it that is replaced. -/
def replacedInside : Bytes := ofString "__sync_fetch_and_add(__sync_synchronize())"

/-- A call with a directive among its arguments, and a call that is replaced. -/
def replacedBehindDirective : Bytes :=
  ofString "__sync_fetch_and_add(p,\n#if A\n__sync_synchronize()\n#endif\n)"

/-- A call that is kept in an argument of another call, with a line comment in it. -/
def commentInside : Bytes := ofString "__sync_add_and_fetch(p, __sync_fetch_and_or(q // c\n))"

/-- Calls that stand in a kept call are replaced, and line comments in it are dropped. -/
theorem not_copied_if_disturbed :
    ((normalize {} replacedInside).report.kept = [⟨1, .fetchAndOp .add, .arity 2 1⟩] ∧
      (normalize {} replacedInside).text = ofString "__sync_fetch_and_add(((void)0))" ∧
      ¬ replacedInside <:+: (normalize {} replacedInside).text) ∧
    ((normalize {} replacedBehindDirective).report.kept = [⟨1, .fetchAndOp .add, .directive 2⟩] ∧
      (normalize {} replacedBehindDirective).text =
        ofString "__sync_fetch_and_add(p,\n#if A\n((void)0)\n#endif\n)") ∧
    (normalize {} commentInside).report.kept = [⟨1, .fetchAndOp .or, .arity 2 1⟩] ∧
      (normalize {} commentInside).text = ofString "(*(p) += (__sync_fetch_and_or(q  \n)))" := by
  decide +kernel

end PlainSync.Source
