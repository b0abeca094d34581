import Mathlib.Data.List.Forall2
import PlainSync.Log.Decode

/-!
# What an object says of an entry

The schema of log entries, stated on JSON values apart from the reader: which value a field may
have, which fields must be set and which need not. An entry is read from an object exactly if the
object says so, field by field.
-/

namespace PlainSync

/-- Every level is listed. -/
theorem Level.mem_all (level : Level) : level ∈ Level.all := by
  cases level with
  | trace | debug | info | warn | error => decide

/-- Every outcome is listed. -/
theorem Ending.mem_all (ending : Ending) : ending ∈ Ending.all := by
  cases ending with
  | pass | fail | skip | error => decide

/-- Every stage is listed. -/
theorem Stage.mem_all (stage : Stage) : stage ∈ Stage.all := by
  cases stage with
  | header | normalize | verify => decide

namespace Json

/-- The value is a string with this text. -/
def IsText (value : Json) (text : String) : Prop := value = .string text

/-- The value is a choice: its name, or an object with nothing but its name in front of null. -/
def IsChoice {α : Type} (nameOf : α → String) (value : Json) (choice : α) : Prop :=
  value = .string (nameOf choice) ∨ value = .object [(nameOf choice, .null)]

/-- The value is an integer of 64 bits that is not negative. -/
def IsWord (value : Json) (n : Nat) : Prop := value = .integer n ∧ n < Nat.pow 2 64

/-- The value is a list of strings with these texts. -/
def IsTexts (value : Json) (texts : List String) : Prop := value = .array (texts.map .string)

/-- The value has a field that holds something. -/
def Requires {α : Type} (value : Json) (name : String) (Holds : Json → α → Prop) (held : α) :
    Prop :=
  ∃ json, value.get? name = some json ∧ Holds json held

/-- The value has a field that holds something, or has no such field or null in it. -/
def Admits {α : Type} (value : Json) (name : String) (Holds : Json → α → Prop) :
    Option α → Prop
  | some held => ∃ json, value.get? name = some json ∧ json ≠ .null ∧ Holds json held
  | none => value.get? name = none ∨ value.get? name = some .null

end Json

namespace LogEntry

open Json (IsChoice IsText IsTexts IsWord Mismatch)

/-- A value says that it is an entry: each field is of its kind and holds what the entry holds. What
other fields there are does not matter. -/
structure IsSaidBy (value : Json) (entry : LogEntry) : Prop where
  timestamp : value.Requires "timestamp" IsText entry.timestamp
  traceId : value.Requires "trace_id" IsText entry.traceId
  level : value.Requires "level" (IsChoice Level.name) entry.level
  event : value.Requires "event" IsText entry.event
  stage : value.Admits "stage" (IsChoice Stage.name) entry.stage
  builtin : value.Admits "builtin" IsText entry.builtin
  width : value.Admits "width" IsText entry.width
  sourcePath : value.Admits "source_path" IsText entry.sourcePath
  line : value.Admits "line" IsWord entry.line
  ending : value.Admits "outcome" (IsChoice Ending.name) entry.ending
  durationMs : value.Admits "duration_ms" IsWord entry.durationMs
  artifactRefs : value.Admits "artifact_refs" IsTexts entry.artifactRefs
  details : value.Admits "details" Eq entry.details

/-! ## Reading one value -/

/-- An action that goes on with the result of another succeeds exactly if both do. -/
theorem bind_eq_ok_iff {α β : Type} {first : Except Mismatch α} {next : α → Except Mismatch β}
    {result : β} :
    first >>= next = .ok result ↔ ∃ value, first = .ok value ∧ next value = .ok result := by
  cases first with
  | error why => exact iff_of_false nofun fun ⟨_, hvalue, _⟩ => nomatch hvalue
  | ok value =>
    refine ⟨fun hnext => ⟨value, rfl, hnext⟩, ?_⟩
    rintro ⟨_, ⟨⟩, hnext⟩
    exact hnext

/-- A reader succeeds exactly on what holds something, and gives that. -/
def Decides {α : Type} (read : Json → Except Mismatch α) (Holds : Json → α → Prop) : Prop :=
  ∀ json held, read json = .ok held ↔ Holds json held

/-- Reading a string succeeds for strings only. -/
theorem decides_readString : Decides readString IsText := by
  intro json text
  cases json with
  | string value => simp [readString, IsText]
  | _ => exact iff_of_false nofun nofun

/-- Reading a number succeeds for numbers that fit only. -/
theorem decides_readNat (expected : String) : Decides (readNat expected) IsWord := by
  intro json n
  cases json with
  | integer value =>
    simp only [readNat, IsWord, Json.integer.injEq]
    split
    · next hfits =>
      rw [Except.ok.injEq]
      constructor
      · rintro rfl
        exact ⟨(Int.toNat_of_nonneg hfits.1).symm, hfits.2⟩
      · rintro ⟨rfl, -⟩
        exact Int.toNat_natCast n
    · next hfits =>
      refine iff_of_false nofun ?_
      rintro ⟨rfl, hn⟩
      exact hfits ⟨Int.natCast_nonneg n, hn⟩
  | _ => exact iff_of_false nofun nofun

/-- Reading a list succeeds exactly if reading each of its items does. -/
theorem mapM_eq_ok_iff {α : Type} {read : Json → Except Mismatch α} {items : List Json}
    {held : List α} :
    items.mapM read = .ok held ↔ List.Forall₂ (fun item one => read item = .ok one) items held := by
  induction items generalizing held with
  | nil =>
    rw [List.mapM_nil, List.forall₂_nil_left_iff]
    change Except.ok [] = Except.ok held ↔ _
    rw [Except.ok.injEq]
    exact eq_comm
  | cons item more ih =>
    simp only [List.mapM_cons, bind_eq_ok_iff, ih, List.forall₂_cons_left_iff]
    constructor
    · rintro ⟨one, hone, others, hothers, hheld⟩
      exact ⟨one, others, hone, hothers, (Except.ok.inj hheld).symm⟩
    · rintro ⟨one, others, hone, hothers, rfl⟩
      exact ⟨one, hone, others, hothers, rfl⟩

/-- Reading strings succeeds for arrays of strings only. -/
theorem decides_readStrings : Decides readStrings IsTexts := by
  intro json texts
  cases json with
  | array items =>
    have htexts : List.Forall₂ (fun item text => readString item = .ok text) items texts ↔
        items = texts.map .string := by
      simp only [decides_readString _ _, IsText]
      rw [← List.forall₂_map_right_iff (f := Json.string), List.forall₂_eq_eq_eq]
    rw [readStrings, mapM_eq_ok_iff, htexts, IsTexts, Json.array.injEq]
  | _ => exact iff_of_false nofun nofun

/-- Any value is read as it is. -/
theorem decides_ok : Decides .ok (Eq (α := Json)) :=
  fun json held => by rw [Except.ok.injEq]

section Choices

variable {α : Type} {choices : List α} {nameOf : α → String}

/-- A name is read as the one choice that has it. -/
theorem readName_eq_ok_iff (hall : ∀ choice, choice ∈ choices)
    (hnames : Function.Injective nameOf) {name : String} {choice : α} :
    readName choices nameOf name = .ok choice ↔ name = nameOf choice := by
  unfold readName
  cases hfind : choices.find? fun choice => nameOf choice == name with
  | none =>
    refine iff_of_false nofun ?_
    rintro rfl
    exact List.find?_eq_none.mp hfind choice (hall choice) (beq_self_eq_true _)
  | some found =>
    have hfound : nameOf found = name := by simpa using List.find?_some hfind
    change Except.ok found = .ok choice ↔ _
    rw [Except.ok.injEq, ← hfound]
    exact hnames.eq_iff.symm

/-- Reading a choice succeeds for the names of choices only. -/
theorem decides_readChoice (hall : ∀ choice, choice ∈ choices)
    (hnames : Function.Injective nameOf) :
    Decides (readChoice choices nameOf) (IsChoice nameOf) := by
  intro json choice
  cases json with
  | string name =>
    rw [readChoice, readName_eq_ok_iff hall hnames, IsChoice, Json.string.injEq]
    exact ⟨Or.inl, fun h => h.resolve_right nofun⟩
  | object members =>
    match members with
    | [] => exact iff_of_false nofun (by simp [IsChoice])
    | [(name, value)] =>
      simp only [readChoice, bind_eq_ok_iff, readName_eq_ok_iff hall hnames, IsChoice]
      cases value with
      | null =>
        constructor
        · rintro ⟨found, rfl, hfound⟩
          exact Or.inr (by rw [Except.ok.inj hfound])
        · intro h
          cases h.resolve_left nofun
          exact ⟨choice, rfl, rfl⟩
      | _ =>
        refine iff_of_false (fun ⟨_, _, hnull⟩ => nomatch hnull) fun h => ?_
        cases h.resolve_left nofun
    | first :: second :: more => exact iff_of_false nofun (by simp [IsChoice])
  | _ => exact iff_of_false nofun (by simp [IsChoice])

end Choices

/-! ## Reading fields -/

section Fields

variable {α : Type} {read : Json → Except Mismatch α} {Holds : Json → α → Prop} {value : Json}

/-- A required member is read exactly if it is there and holds what is read. -/
theorem readRequired_eq_ok_iff (hread : Decides read Holds) (name : String) (held : α) :
    readRequired value name read = .ok held ↔ value.Requires name Holds held := by
  unfold readRequired Json.Requires
  cases value.get? name with
  | none => exact iff_of_false nofun fun ⟨_, hsome, _⟩ => nomatch hsome
  | some json => simp [hread json held]

/-- An optional member is read exactly if it holds what is read or is absent. -/
theorem readOptional_eq_ok_iff (hread : Decides read Holds) (name : String) (held? : Option α) :
    readOptional value name read = .ok held? ↔ value.Admits name Holds held? := by
  unfold readOptional
  split
  · next hnone =>
    cases held? with
    | none => exact iff_of_true rfl (Or.inl hnone)
    | some held => exact iff_of_false nofun fun ⟨_, hsome, _⟩ => nomatch hnone.symm.trans hsome
  · next hnull =>
    cases held? with
    | none => exact iff_of_true rfl (Or.inr hnull)
    | some held =>
      refine iff_of_false nofun fun ⟨json, hsome, hne, _⟩ => hne ?_
      exact (Option.some.inj (hnull.symm.trans hsome)).symm
  · next json hnull hsome =>
    have hne : json ≠ .null := hnull
    cases held? with
    | none =>
      refine iff_of_false (fun hmap => ?_) ?_
      · cases hjson : read json with
        | error why => rw [hjson] at hmap; cases hmap
        | ok held => rw [hjson] at hmap; cases hmap
      · rintro (hnone | hnull')
        · cases hnone.symm.trans hsome
        · exact hne (Option.some.inj (hsome.symm.trans hnull'))
    | some held =>
      have hmap : (read json).map some = .ok (some held) ↔ read json = .ok held := by
        cases read json with
        | error why => exact iff_of_false nofun nofun
        | ok other => simp [Except.map]
      rw [hmap, hread json held]
      constructor
      · exact fun hholds => ⟨json, hsome, hne, hholds⟩
      · rintro ⟨other, hother, -, hholds⟩
        cases hsome.symm.trans hother
        exact hholds

end Fields

/-- Reading a level succeeds for the names of levels only. -/
theorem decides_level : Decides (readChoice Level.all Level.name) (IsChoice Level.name) :=
  decides_readChoice Level.mem_all fun level other => by
    cases level <;> cases other <;> decide

/-- Reading an outcome succeeds for the names of outcomes only. -/
theorem decides_ending : Decides (readChoice Ending.all Ending.name) (IsChoice Ending.name) :=
  decides_readChoice Ending.mem_all fun ending other => by
    cases ending <;> cases other <;> decide

/-- Reading a stage succeeds for the names of stages only. -/
theorem decides_stage : Decides (readChoice Stage.all Stage.name) (IsChoice Stage.name) :=
  decides_readChoice Stage.mem_all fun stage other => by
    cases stage <;> cases other <;> decide

/-- An entry is read from a value exactly if the value says that it is that entry. -/
theorem ofJson_eq_ok_iff {value : Json} {entry : LogEntry} :
    ofJson value = .ok entry ↔ entry.IsSaidBy value := by
  simp only [ofJson, bind_eq_ok_iff, readOptional_eq_ok_iff decides_readStrings,
    readOptional_eq_ok_iff decides_readString, readOptional_eq_ok_iff decides_ok,
    readOptional_eq_ok_iff (decides_readNat _), readOptional_eq_ok_iff decides_ending,
    readOptional_eq_ok_iff decides_stage, readRequired_eq_ok_iff decides_readString,
    readRequired_eq_ok_iff decides_level]
  constructor
  · rintro ⟨artifactRefs, hrefs, builtin, hbuiltin, details, hdetails, durationMs, hduration, event,
      hevent, level, hlevel, line, hline, ending, hending, sourcePath, hsource, stage, hstage,
      timestamp, htimestamp, traceId, htraceId, width, hwidth, hentry⟩
    cases hentry
    exact ⟨htimestamp, htraceId, hlevel, hevent, hstage, hbuiltin, hwidth, hsource, hline, hending,
      hduration, hrefs, hdetails⟩
  · intro h
    exact ⟨_, h.artifactRefs, _, h.builtin, _, h.details, _, h.durationMs, _, h.event, _, h.level,
      _, h.line, _, h.ending, _, h.sourcePath, _, h.stage, _, h.timestamp, _, h.traceId, _, h.width,
      rfl⟩

end LogEntry

end PlainSync
