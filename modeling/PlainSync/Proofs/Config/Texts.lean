import PlainSync.Proofs.Config.Reading
import PlainSync.Proofs.Json.Printing

/-!
# Texts of settings

A text that spells an object of settings is read as the defaults with exactly these settings put
in their place, whatever their order and spelling. A text that spells an object with an unknown
or a repeated name is no text of settings. No settings are read that are not valid.
-/

namespace PlainSync.Config

open Json (Spells)

/-- Every field is listed. -/
theorem mem_all (field : Field) : field ∈ Field.all := by
  cases field with
  | normalizeAtomics | managedRegion | crossRegion => decide

/-- Fields have names of their own. -/
theorem nodup_map_name {fields : List Field} (hfields : fields.Nodup) :
    (fields.map Field.name).Nodup := by
  have hinjective : ∀ first ∈ Field.all, ∀ second ∈ Field.all,
      first.name = second.name → first = second := by
    decide
  refine List.pairwise_map.mpr (hfields.imp fun hne hsame => hne ?_)
  exact hinjective _ (mem_all _) _ (mem_all _) hsame

section

variable {text : String}

/-- A text that gives settings of different fields is read as the defaults with the settings put
in their place, unless they name the unmanaged region. -/
theorem ofJson_of_gives {settings : List Setting} {members : List (String × Json)}
    (hgives : Gives settings members) (hfields : (settings.map Setting.field).Nodup)
    (htext : Spells (Json.object members).toTokens text.toList) :
    ofJson text =
      if (overridden settings).managedRegion.isManaged then .ok (overridden settings)
      else .error (.refused (.reservedRegion (overridden settings).managedRegion)) := by
  have hread : ofJson text = ((overridden settings).validate).mapError .refused := by
    unfold ofJson
    rw [htext.tokens_eq, ReadState.run_object hgives hfields]
    rfl
  rw [hread, validate]
  split
  · rfl
  · rfl

/-- A text that is an object with a name that is no field's, or with a name that stands twice, is
refused for what it is. -/
theorem ofJson_of_bad_names {members : List (String × Json)}
    (htext : Spells (Json.object members).toTokens text.toList)
    (hnames : (∃ name ∈ members.map Prod.fst, name ∉ Field.all.map Field.name) ∨
      ¬ (members.map Prod.fst).Nodup) :
    ∃ error, ofJson text = .error error ∧ error.IsJson := by
  cases hrun : ReadState.start.run (Json.tokens text.toList) with
  | error error =>
    refine ⟨error, ?_, ReadState.run_isJson hrun⟩
    unfold ofJson
    rw [hrun]
    rfl
  | ok final =>
    rw [htext.tokens_eq] at hrun
    obtain ⟨fields, hfields, hnodup⟩ := ReadState.exists_fields_of_run_object hrun
    rw [← hfields] at hnames
    rcases hnames with ⟨name, hname, hunknown⟩ | hrepeated
    · obtain ⟨field, -, rfl⟩ := List.mem_map.mp hname
      exact absurd (List.mem_map_of_mem (mem_all field)) hunknown
    · exact absurd (nodup_map_name hnodup) hrepeated

/-- Settings that are read are valid. -/
theorem validate_of_ofJson {config : Config} (hread : ofJson text = .ok config) :
    config.validate = .ok config := by
  unfold ofJson at hread
  cases hrun : ReadState.start.run (Json.tokens text.toList) with
  | error error =>
    rw [hrun] at hread
    cases hread
  | ok final =>
    rw [hrun] at hread
    cases final with
    | done config' =>
      change (config'.validate).mapError _ = .ok config at hread
      unfold validate at hread ⊢
      split at hread
      · next hmanaged =>
        cases hread
        exact if_pos hmanaged
      · cases hread
    | _ => cases hread

/-- Settings give themselves. -/
theorem gives_members (config : Config) :
    Gives [.normalizeAtomics config.normalizeAtomics,
      .managedRegion config.managedRegion.number, .crossRegion config.crossRegion]
      config.members :=
  .cons (.normalizeAtomics _) (.cons (.managedRegion _) (.cons (.crossRegion _) .nil))

/-- The settings of a configuration are about fields of their own. -/
theorem nodup_fields (config : Config) :
    ([Setting.normalizeAtomics config.normalizeAtomics,
      .managedRegion config.managedRegion.number,
      .crossRegion config.crossRegion].map Setting.field).Nodup := by
  change [Field.normalizeAtomics, .managedRegion, .crossRegion].Nodup
  decide

/-- Settings with a managed region are read from their text. -/
theorem ofJson_toJson_of_isManaged {config : Config}
    (hmanaged : config.managedRegion.isManaged = true) : ofJson config.toJson = .ok config := by
  have hnumber : config.managedRegion.number.toNat < Nat.pow 2 64 :=
    Nat.lt_trans config.managedRegion.number.toNat_lt (by decide)
  have hexact : config.json.IsExact :=
    ⟨trivial, Json.integerRange_natCast hnumber, trivial, trivial⟩
  have hread := ofJson_of_gives config.gives_members config.nodup_fields (Json.spells_pretty hexact)
  rw [toJson, json, hread]
  exact if_pos hmanaged

end

/-- Reading settings is exact and safe. Settings with a managed region are read from their own
text. A text of an object that gives any settings, each field at most once and in any order and
spelling, is read as the defaults with exactly these settings put in their place, unless the
region is reserved. A text of an object with an unknown or a repeated name is refused for what
it is. And from no text whatsoever are settings read that are not valid. -/
theorem ofJson_exact_and_valid :
    (∀ config : Config, config.managedRegion.isManaged = true →
      ofJson config.toJson = .ok config) ∧
    (∀ (settings : List Setting) (members : List (String × Json)) (text : String),
      Gives settings members → (settings.map Setting.field).Nodup →
      Spells (Json.object members).toTokens text.toList →
      ofJson text =
        if (overridden settings).managedRegion.isManaged then .ok (overridden settings)
        else .error (.refused (.reservedRegion (overridden settings).managedRegion))) ∧
    (∀ (members : List (String × Json)) (text : String),
      Spells (Json.object members).toTokens text.toList →
      ((∃ name ∈ members.map Prod.fst, name ∉ Field.all.map Field.name) ∨
        ¬ (members.map Prod.fst).Nodup) →
      ∃ error, ofJson text = .error error ∧ error.IsJson) ∧
    ∀ (text : String) (config : Config), ofJson text = .ok config →
      config.validate = .ok config := by
  refine ⟨?_, ?_, ?_, ?_⟩
  · exact fun config hmanaged => ofJson_toJson_of_isManaged hmanaged
  · exact fun settings members text hgives hfields htext => ofJson_of_gives hgives hfields htext
  · exact fun members text htext hnames => ofJson_of_bad_names htext hnames
  · exact fun text config hread => validate_of_ofJson hread

/-- A text that gives one setting, with blanks between its tokens. -/
def allowingText : String := "\x7b \"cross_region\" : \"allow\" \x7d"

/-- A text with blanks spells the one member that it has. -/
theorem spells_allowingText :
    Spells (Json.object [("cross_region", .string "allow")]).toTokens allowingText.toList := by
  have htext : allowingText.toList =
      ['\x7b'] ++ ' ' :: (Json.stringText "cross_region" ++ ' ' :: ([':'] ++ ' ' ::
        (Json.stringText "allow" ++ ' ' :: (['\x7d'] ++ [])))) := by
    decide
  have hend : Spells [.closeBrace] (' ' :: (['\x7d'] ++ [])) :=
    .blank (by decide) (.token .closeBrace trivial .nil)
  rw [htext]
  apply Spells.token .openBrace trivial
  apply Spells.blank (by decide)
  apply Spells.token (Json.spellsToken_stringText "cross_region") trivial
  apply Spells.blank (by decide)
  apply Spells.token .colon trivial
  apply Spells.blank (by decide)
  exact .token (Json.spellsToken_stringText "allow") trivial hend

/-- Settings are read back, and a policy alone leaves the others. -/
theorem ofJson_allowingText :
    ofJson (toJson {}) = .ok {} ∧ ofJson allowingText = .ok { crossRegion := .allow } ∧
      (∃ error, ofJson (Json.object [("region", .null)]).compact = .error error ∧ error.IsJson) ∧
      validate { crossRegion := .allow } = .ok { crossRegion := .allow } := by
  obtain ⟨hown, hgiven, hnames, hvalid⟩ := ofJson_exact_and_valid
  have hgives : Gives [.crossRegion .allow] [("cross_region", .string "allow")] :=
    .cons (.crossRegion .allow) .nil
  have hallow : ofJson allowingText = .ok { crossRegion := .allow } :=
    hgiven _ _ _ hgives (by decide) spells_allowingText
  refine ⟨hown {} (by decide), hallow, ?_, hvalid _ _ hallow⟩
  apply hnames [("region", .null)] _ (Json.spells_compact ⟨trivial, trivial⟩)
  exact Or.inl ⟨"region", by decide, by decide⟩

end PlainSync.Config
