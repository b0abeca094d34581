import PlainSync.Config.Reader
import PlainSync.Proofs.Json.Parsing

/-!
# Reading the tokens of settings

The tokens of an object of settings are read as the defaults with these settings put in their
place. An object that is read has the names of different fields, whatever the values are. A
failure is always one of the text, never one of the settings.
-/

namespace PlainSync

/-- The text itself is at fault, not the settings that it spells. -/
def ConfigTextError.IsJson (error : ConfigTextError) : Prop := ∀ why, error ≠ .refused why

namespace Config

open Json (Token memberTokens)

/-! ## Settings -/

/-- A value for one of the fields. -/
inductive Setting where
  | normalizeAtomics (truth : Bool)
  | managedRegion (number : UInt32)
  | crossRegion (policy : CrossRegionPolicy)

namespace Setting

/-- The field that is set. -/
def field : Setting → Field
  | normalizeAtomics _ => .normalizeAtomics
  | managedRegion _ => .managedRegion
  | crossRegion _ => .crossRegion

/-- Put the value in the place of the one that the settings have. -/
def override (config : Config) : Setting → Config
  | normalizeAtomics truth => { config with normalizeAtomics := truth }
  | managedRegion number => { config with managedRegion := ⟨number⟩ }
  | crossRegion policy => { config with crossRegion := policy }

/-- The ways to write the value. A policy is its name, or an object with its name in front of
null. -/
inductive Writes : Setting → Json → Prop where
  | normalizeAtomics (truth : Bool) : Writes (.normalizeAtomics truth) (.bool truth)
  | managedRegion (number : UInt32) : Writes (.managedRegion number) (.nat number.toNat)
  | crossRegion (policy : CrossRegionPolicy) : Writes (.crossRegion policy) (.string policy.name)
  | crossRegionObject (policy : CrossRegionPolicy) :
    Writes (.crossRegion policy) (.object [(policy.name, .null)])

end Setting

/-- The members give the settings, one after the other. -/
inductive Gives : List Setting → List (String × Json) → Prop where
  | nil : Gives [] []
  | cons {setting : Setting} {json : Json} {settings : List Setting}
    {members : List (String × Json)} (hsetting : setting.Writes json)
    (hmore : Gives settings members) :
    Gives (setting :: settings) ((setting.field.name, json) :: members)

/-- The defaults with settings put in their place. -/
def overridden (settings : List Setting) : Config := settings.foldl Setting.override {}

/-! ## Reading the tokens of settings -/

namespace ReadState

/-- Tokens are read one after the other. -/
theorem run_cons (state : ReadState) (token : Token) (more : List Token) :
    state.run (token :: more) = (state.step token).bind fun next => next.run more := rfl

/-- Reading goes on from the state that the first token leads to. -/
theorem run_of_step {state next : ReadState} {token : Token} (hstep : state.step token = .ok next)
    (more : List Token) : state.run (token :: more) = next.run more := by
  rw [run_cons, hstep]
  rfl

/-- A field is found by its name. -/
theorem ofName?_name (field : Field) : Field.ofName? field.name = some field := by
  cases field with
  | normalizeAtomics | managedRegion | crossRegion => rfl

section

variable {config : Config} {given : List Field}

/-- The name of a field that was not given is followed by a colon. -/
theorem step_name {field : Field} (hfield : field ∉ given) :
    (name config given).step (.string field.name) = .ok (colon config given field) := by
  change beginMember config given field.name = .ok (colon config given field)
  unfold beginMember
  rw [ofName?_name]
  exact if_neg hfield

/-- A number sets the managed region. -/
theorem step_value_managedRegion (place : Place) (number : UInt32) :
    (value config given .managedRegion place).step (.integer number.toNat) =
      .ok (behind { config with managedRegion := ⟨number⟩ } given .managedRegion place) := by
  have hfits : 0 ≤ (number.toNat : Int) ∧ (number.toNat : Int).toNat < Nat.pow 2 32 :=
    ⟨Int.natCast_nonneg _, number.toNat_lt⟩
  have hnumber : (number.toNat : Int).toNat.toUInt32 = number := by
    rw [Int.toNat_natCast]
    exact UInt32.ofNat_toNat
  have hstep : (value config given .managedRegion place).step (.integer number.toNat) =
      .ok (behind { config with managedRegion := ⟨(number.toNat : Int).toNat.toUInt32⟩ } given
        .managedRegion place) := if_pos hfits
  rw [hstep, hnumber]

/-- A name sets the policy. -/
theorem step_value_crossRegion (place : Place) (policy : CrossRegionPolicy) :
    (value config given .crossRegion place).step (.string policy.name) =
      .ok (behind { config with crossRegion := policy } given .crossRegion place) := by
  cases policy with
  | deny | allow => rfl

/-- A name in braces sets the policy. -/
theorem step_policyName (place : Place) (policy : CrossRegionPolicy) :
    (policyName config given place).step (.string policy.name) =
      .ok (policyColon { config with crossRegion := policy } given place) := by
  cases policy with
  | deny | allow => rfl

end

/-- A written value is read into its place. -/
theorem run_writes {setting : Setting} {json : Json} (hwrites : setting.Writes json)
    (config : Config) (given : List Field) (rest : List Token) :
    (value config given setting.field .member).run (json.toTokens ++ rest) =
      (behind (setting.override config) given setting.field .member).run rest := by
  cases hwrites with
  | normalizeAtomics truth => exact run_of_step rfl rest
  | managedRegion number => exact run_of_step (step_value_managedRegion .member number) rest
  | crossRegion policy => exact run_of_step (step_value_crossRegion .member policy) rest
  | crossRegionObject policy =>
    have htokens : (Json.object [(policy.name, .null)]).toTokens ++ rest =
        .openBrace :: .string policy.name :: .colon :: .null :: .closeBrace :: rest := rfl
    have hopen : (value config given .crossRegion .member).step .openBrace =
        .ok (policyName config given .member) := rfl
    rw [htokens]
    change (value config given .crossRegion .member).run _ = _
    rw [run_of_step hopen, run_of_step (step_policyName .member policy), run_of_step rfl,
      run_of_step rfl, run_of_step rfl]
    rfl

/-- Members that give settings of different fields are read into their places. -/
theorem run_gives {setting : Setting} {json : Json} {settings : List Setting}
    {members : List (String × Json)} (hsetting : setting.Writes json)
    (hmore : Gives settings members) {config : Config} {given : List Field}
    (hgiven : ∀ other ∈ setting :: settings, other.field ∉ given)
    (hfields : ((setting :: settings).map Setting.field).Nodup) :
    (name config given).run
        (memberTokens ((setting.field.name, json) :: members) ++ [.closeBrace]) =
      .ok (done ((setting :: settings).foldl Setting.override config)) := by
  obtain ⟨hfield, hothers⟩ := List.forall_mem_cons.mp hgiven
  induction hmore generalizing setting json config given with
  | nil =>
    rw [memberTokens, List.cons_append, run_of_step (step_name hfield), List.cons_append,
      run_of_step rfl, run_writes hsetting]
    rfl
  | @cons next nextJson settings members hnext hmore ih =>
    obtain ⟨hapart, hrest⟩ := List.nodup_cons.mp hfields
    have hgiven' : ∀ other ∈ next :: settings, other.field ∉ setting.field :: given := by
      intro other hother hmem
      rcases List.mem_cons.mp hmem with hsame | hmem
      · apply hapart
        rw [← hsame]
        exact List.mem_map_of_mem hother
      · exact hothers other hother hmem
    obtain ⟨hfield', hothers'⟩ := List.forall_mem_cons.mp hgiven'
    rw [memberTokens, List.append_assoc, List.cons_append, run_of_step (step_name hfield),
      List.cons_append, run_of_step rfl, run_writes hsetting, List.cons_append, run_of_step rfl]
    exact ih hnext hgiven' hrest hfield' hothers'

/-- An object that gives settings of different fields is read as the defaults with the settings
put in their place. -/
theorem run_object {settings : List Setting} {members : List (String × Json)}
    (hgives : Gives settings members) (hfields : (settings.map Setting.field).Nodup) :
    start.run (Json.object members).toTokens = .ok (done (overridden settings)) := by
  rw [Json.toTokens, List.cons_append, run_of_step rfl]
  cases hgives with
  | nil => rfl
  | @cons setting json settings members hsetting hmore =>
    obtain ⟨others, hothers⟩ :=
      Json.exists_memberTokens_eq_cons setting.field.name json members
    have hrun : (name {} []).run
        (memberTokens ((setting.field.name, json) :: members) ++ [.closeBrace]) =
        .ok (done (overridden (setting :: settings))) :=
      run_gives hsetting hmore (by simp) hfields
    rw [hothers, List.cons_append] at hrun ⊢
    exact hrun

/-! ## Names in an object -/

/-- Tokens that are read have a first one that is. -/
theorem exists_step_of_run {state final : ReadState} {token : Token} {more : List Token}
    (hrun : state.run (token :: more) = .ok final) :
    ∃ next, state.step token = .ok next ∧ next.run more = .ok final := by
  rw [run_cons] at hrun
  cases hstep : state.step token with
  | error error =>
    rw [hstep] at hrun
    cases hrun
  | ok next =>
    rw [hstep] at hrun
    exact ⟨next, rfl, hrun⟩

/-- A token that is not expected leads nowhere. -/
theorem unexpected_ne_ok {expected : String} {token : Token} {next : ReadState} :
    unexpected expected token ≠ .ok next := by
  unfold unexpected
  cases found? token with
  | none | some found => exact nofun

/-- A token that a value may begin with is the whole value, or opens the object of a policy. -/
theorem step_value_cases {config : Config} {given : List Field} {field : Field} {place : Place}
    {token : Token} {next : ReadState}
    (hstep : (value config given field place).step token = .ok next) :
    (token ≠ .openBracket ∧ token ≠ .openBrace ∧
      ∃ config', next = behind config' given field place) ∨
    (token = .openBrace ∧ field = .crossRegion ∧ next = policyName config given place) := by
  change beginValue config given field place token = .ok next at hstep
  unfold beginValue at hstep
  split at hstep
  · cases hstep
    exact Or.inl ⟨nofun, nofun, _, rfl⟩
  · exact absurd hstep unexpected_ne_ok
  · split at hstep
    · cases hstep
      exact Or.inl ⟨nofun, nofun, _, rfl⟩
    · cases hstep
  · exact absurd hstep unexpected_ne_ok
  · next text =>
    cases hpolicy : readPolicy text with
    | error error =>
      rw [hpolicy] at hstep
      cases hstep
    | ok policy =>
      rw [hpolicy] at hstep
      cases hstep
      exact Or.inl ⟨nofun, nofun, _, rfl⟩
  · cases hstep
    exact Or.inr ⟨rfl, rfl, rfl⟩
  · cases hstep

/-- What a policy in braces goes on with. -/
theorem step_policyName_cases {config : Config} {given : List Field} {place : Place}
    {token : Token} {next : ReadState}
    (hstep : (policyName config given place).step token = .ok next) :
    token ≠ .closeBrace ∧ ∃ config', next = policyColon config' given place := by
  cases token with
  | string text =>
    change (readPolicy text).bind _ = .ok next at hstep
    cases hpolicy : readPolicy text with
    | error error =>
      rw [hpolicy] at hstep
      cases hstep
    | ok policy =>
      rw [hpolicy] at hstep
      cases hstep
      exact ⟨nofun, _, rfl⟩
  | _ => cases hstep

/-- What the colon behind a policy goes on with. -/
theorem step_policyValue_cases {config : Config} {given : List Field} {place : Place}
    {token : Token} {next : ReadState}
    (hstep : (policyValue config given place).step token = .ok next) :
    token = .null ∧ next = policyEnd config given place := by
  cases token with
  | null =>
    cases hstep
    exact ⟨rfl, rfl⟩
  | _ => cases hstep

/-- What the value behind a policy goes on with. -/
theorem step_policyEnd_cases {config : Config} {given : List Field} {place : Place}
    {token : Token} {next : ReadState}
    (hstep : (policyEnd config given place).step token = .ok next) :
    token = .closeBrace ∧ next = behind config given .crossRegion place := by
  cases token with
  | closeBrace =>
    cases hstep
    exact ⟨rfl, rfl⟩
  | _ => cases hstep

/-- An object in the place of a policy has one member, whose value is null. -/
theorem exists_behind_of_run_policyName {members : List (String × Json)} {config : Config}
    {given : List Field} {place : Place} {rest : List Token} {final : ReadState}
    (hrun : (policyName config given place).run (memberTokens members ++ [.closeBrace] ++ rest) =
      .ok final) :
    ∃ config', (behind config' given .crossRegion place).run rest = .ok final := by
  cases members with
  | nil =>
    obtain ⟨_, hstep, -⟩ := exists_step_of_run hrun
    exact absurd rfl (step_policyName_cases hstep).1
  | cons member more =>
    obtain ⟨label, json⟩ := member
    obtain ⟨others, hothers, hmore⟩ := Json.exists_memberTokens_eq_append label json more
    rw [hothers] at hrun
    obtain ⟨_, hstep, hrun⟩ := exists_step_of_run hrun
    obtain ⟨-, config', rfl⟩ := step_policyName_cases hstep
    obtain ⟨_, hstep, hrun⟩ := exists_step_of_run hrun
    cases hstep
    obtain ⟨token, tokens, htokens, -⟩ := Json.exists_toTokens_eq_cons json
    rw [htokens] at hrun
    obtain ⟨_, hstep, hrun⟩ := exists_step_of_run hrun
    obtain ⟨rfl, rfl⟩ := step_policyValue_cases hstep
    have hnull : tokens = [] := by
      cases json with
      | null =>
        cases htokens
        rfl
      | _ => cases htokens
    rw [hnull] at hrun
    obtain ⟨rfl, rfl⟩ | ⟨-, rfl⟩ := hmore
    · obtain ⟨_, hstep, hrun⟩ := exists_step_of_run hrun
      obtain ⟨-, rfl⟩ := step_policyEnd_cases hstep
      exact ⟨config', hrun⟩
    · obtain ⟨_, hstep, -⟩ := exists_step_of_run hrun
      exact Token.noConfusion (step_policyEnd_cases hstep).1

/-- Where a text goes on behind the value of a field, whatever the value was. -/
theorem exists_behind_of_run (json : Json) {config : Config} {given : List Field} {field : Field}
    {place : Place} {rest : List Token} {final : ReadState}
    (hrun : (value config given field place).run (json.toTokens ++ rest) = .ok final) :
    ∃ config', (behind config' given field place).run rest = .ok final := by
  obtain ⟨token, tokens, htokens, -⟩ := Json.exists_toTokens_eq_cons json
  rw [htokens, List.cons_append] at hrun
  obtain ⟨next, hstep, hmore⟩ := exists_step_of_run hrun
  rcases step_value_cases hstep with ⟨hbracket, hbrace, config', rfl⟩ | ⟨rfl, rfl, rfl⟩
  · cases json with
    | null | bool | integer | real | string =>
      cases htokens
      exact ⟨config', hmore⟩
    | array items =>
      cases htokens
      exact absurd rfl hbracket
    | object members =>
      cases htokens
      exact absurd rfl hbrace
  · cases json with
    | null | bool | integer | real | string | array => cases htokens
    | object members =>
      cases htokens
      exact exists_behind_of_run_policyName hmore

/-- A name that is read is that of a field that was not given. -/
theorem step_name_cases {config : Config} {given : List Field} {text : String} {next : ReadState}
    (hstep : (name config given).step (.string text) = .ok next) :
    ∃ field, field.name = text ∧ field ∉ given ∧ next = colon config given field := by
  change beginMember config given text = .ok next at hstep
  unfold beginMember at hstep
  cases hfield : Field.ofName? text with
  | none =>
    rw [hfield] at hstep
    cases hstep
  | some field =>
    rw [hfield] at hstep
    have hname : (field.name == text) = true :=
      List.find?_some (p := fun field : Field => field.name == text) hfield
    by_cases hgiven : field ∈ given
    · simp only [if_pos hgiven] at hstep
      cases hstep
    · simp only [if_neg hgiven] at hstep
      cases hstep
      exact ⟨field, beq_iff_eq.mp hname, hgiven, rfl⟩

/-- A member that is read names a field that was not given before. -/
theorem exists_behind_of_run_name (label : String) (json : Json) {config : Config}
    {given : List Field} {rest : List Token} {final : ReadState}
    (hrun : (name config given).run (.string label :: .colon :: (json.toTokens ++ rest)) =
      .ok final) :
    ∃ field config', field.name = label ∧ field ∉ given ∧
      (behind config' given field .member).run rest = .ok final := by
  obtain ⟨_, hstep, hrun⟩ := exists_step_of_run hrun
  obtain ⟨field, hname, hfield, rfl⟩ := step_name_cases hstep
  obtain ⟨_, hstep, hrun⟩ := exists_step_of_run hrun
  cases hstep
  obtain ⟨config', hrun⟩ := exists_behind_of_run json hrun
  exact ⟨field, config', hname, hfield, hrun⟩

/-- The names in an object that is read are the names of different fields, none of which was
given before. -/
theorem exists_fields_of_run (label : String) (json : Json) (members : List (String × Json))
    {config : Config} {given : List Field} {rest : List Token} {final : ReadState}
    (hrun : (name config given).run (memberTokens ((label, json) :: members) ++ rest) =
      .ok final) :
    ∃ fields : List Field, fields.map Field.name = label :: members.map Prod.fst ∧
      fields.Nodup ∧ ∀ field ∈ fields, field ∉ given := by
  induction members generalizing label json config given with
  | nil =>
    obtain ⟨field, -, rfl, hfield, -⟩ := exists_behind_of_run_name label json hrun
    exact ⟨[field], rfl, List.pairwise_singleton _ _, List.forall_mem_singleton.mpr hfield⟩
  | cons next members ih =>
    obtain ⟨other, otherJson⟩ := next
    rw [memberTokens, List.append_assoc, List.cons_append, List.cons_append] at hrun
    obtain ⟨field, config', rfl, hfield, hrun⟩ := exists_behind_of_run_name label json hrun
    obtain ⟨_, hstep, hrun⟩ := exists_step_of_run hrun
    cases hstep
    obtain ⟨fields, hnames, hnodup, hgiven⟩ := ih other otherJson hrun
    refine ⟨field :: fields, by rw [List.map_cons, hnames, List.map_cons], ?_, ?_⟩
    · exact List.nodup_cons.mpr ⟨fun hmem => hgiven field hmem List.mem_cons_self, hnodup⟩
    · intro known hknown
      rcases List.mem_cons.mp hknown with rfl | hknown
      · exact hfield
      · exact fun hmem => hgiven known hknown (List.mem_cons_of_mem field hmem)

/-- The names in an object that is read are the names of different fields. -/
theorem exists_fields_of_run_object {members : List (String × Json)} {final : ReadState}
    (hrun : start.run (Json.object members).toTokens = .ok final) :
    ∃ fields : List Field, fields.map Field.name = members.map Prod.fst ∧ fields.Nodup := by
  cases members with
  | nil => exact ⟨[], rfl, .nil⟩
  | cons member members =>
    obtain ⟨label, json⟩ := member
    obtain ⟨others, hothers⟩ := Json.exists_memberTokens_eq_cons label json members
    have hname : (name {} []).run (memberTokens ((label, json) :: members) ++ [.closeBrace]) =
        .ok final := by
      rw [Json.toTokens, List.cons_append, run_of_step rfl] at hrun
      rw [hothers, List.cons_append] at hrun ⊢
      exact hrun
    obtain ⟨fields, hnames, hnodup, -⟩ := exists_fields_of_run label json members hname
    exact ⟨fields, hnames, hnodup⟩

/-! ## Errors -/

/-- A token that is not expected is a fault of the text. -/
theorem unexpected_isJson {α : Type} {expected : String} {token : Token}
    {error : ConfigTextError}
    (herror : (unexpected expected token : Except ConfigTextError α) = .error error) :
    error.IsJson := by
  unfold unexpected at herror
  split at herror
  · cases herror
    exact nofun
  · cases herror
    exact nofun

/-- The name of no policy is a fault of the text. -/
theorem readPolicy_isJson {α : Type} {text : String} {error : ConfigTextError}
    {next : CrossRegionPolicy → α}
    (herror : (do return next (← readPolicy text)) = Except.error error) : error.IsJson := by
  cases hpolicy : readPolicy text with
  | ok policy =>
    rw [hpolicy] at herror
    cases herror
  | error why =>
    rw [hpolicy] at herror
    cases herror
    unfold readPolicy at hpolicy
    split at hpolicy
    · cases hpolicy
    · split at hpolicy
      · cases hpolicy
      · cases hpolicy
        exact nofun

/-- A member that cannot begin is a fault of the text. -/
theorem beginMember_isJson {config : Config} {given : List Field} {text : String}
    {error : ConfigTextError} (herror : beginMember config given text = .error error) :
    error.IsJson := by
  unfold beginMember at herror
  split at herror
  · cases herror
    exact nofun
  · split at herror
    · cases herror
      exact nofun
    · cases herror

/-- A value that cannot begin is a fault of the text. -/
theorem beginValue_isJson {config : Config} {given : List Field} {field : Field} {place : Place}
    {token : Token} {error : ConfigTextError}
    (herror : beginValue config given field place token = .error error) : error.IsJson := by
  unfold beginValue at herror
  split at herror
  · cases herror
  · exact unexpected_isJson herror
  · split at herror
    · cases herror
    · cases herror
      exact nofun
  · exact unexpected_isJson herror
  · exact readPolicy_isJson herror
  · cases herror
  · cases herror
    exact nofun

/-- A token that leads nowhere is a fault of the text. -/
theorem step_isJson {state : ReadState} {token : Token} {error : ConfigTextError}
    (herror : state.step token = .error error) : error.IsJson := by
  have hmalformed : ConfigTextError.malformed.IsJson := nofun
  unfold step at herror
  split at herror
  -- Most tokens lead on or are out of place. The others are read by functions of their own.
  all_goals first
    | exact unexpected_isJson herror
    | exact readPolicy_isJson herror
    | exact beginMember_isJson herror
    | exact beginValue_isJson herror
    | cases herror; done
    | cases herror; exact hmalformed
    | split at herror <;> cases herror; exact hmalformed

/-- Reading tokens fails only for what the text is. -/
theorem run_isJson {state : ReadState} {tokens : List Token} {error : ConfigTextError}
    (herror : state.run tokens = .error error) : error.IsJson := by
  induction tokens generalizing state with
  | nil => cases herror
  | cons token more ih =>
    rw [run_cons] at herror
    cases hstep : state.step token with
    | error error' =>
      rw [hstep] at herror
      cases herror
      exact step_isJson hstep
    | ok next =>
      rw [hstep] at herror
      exact ih herror

end ReadState

end Config

end PlainSync
