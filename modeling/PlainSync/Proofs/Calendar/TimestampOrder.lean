import Mathlib.Data.Prod.Lex
import Mathlib.Data.String.Basic
import PlainSync.Proofs.Calendar.Gregorian
import PlainSync.Proofs.Text.ByteOrder
import PlainSync.Proofs.Text.Characters
import PlainSync.Proofs.Text.PaddedDecimal

/-!
# The order of timestamps

A later day has a later date, by year, month and day. The text of a point in time has these and the
time of day in fields of fixed widths, the longest unit first. So up to the year 9999 all texts have
one length, and they stand in the order of time.
-/

namespace PlainSync

open Bytes

/-! ## Dates in order -/

namespace Date

/-- Dates are ordered by year, then by month, then by day. -/
def key (date : Date) : Int ×ₗ Nat ×ₗ Nat := toLex (date.year, toLex (date.month, date.day))

/-- Dates are ordered by year, month and day. -/
theorem key_lt_key {date date' : Date} :
    date.key < date'.key ↔ date.year < date'.year ∨ date.year = date'.year ∧
      (date.month < date'.month ∨ date.month = date'.month ∧ date.day < date'.day) := by
  rw [key, key, Prod.Lex.toLex_lt_toLex, Prod.Lex.toLex_lt_toLex]

/-- The next date is later. -/
theorem key_lt_next (date : Date) : date.key < date.next.key := by
  rw [key_lt_key]
  unfold next
  split
  · exact .inr ⟨rfl, .inr ⟨rfl, Nat.lt_succ_self _⟩⟩
  · split
    · exact .inr ⟨rfl, .inl (Nat.lt_succ_self _)⟩
    · exact .inl (Int.lt_succ _)

/-- A later day has a later date. -/
theorem key_ofDays_lt_iff {days days' : Int} :
    (ofDays days).key < (ofDays days').key ↔ days < days' := by
  have hmono : StrictMono fun days => (ofDays days).key := by
    refine strictMono_int_of_lt_succ fun days => ?_
    rw [ofDays_succ]
    exact key_lt_next (ofDays days)
  exact hmono.lt_iff_lt

/-- Later days are in later years or in the same one. -/
theorem year_ofDays_mono {days days' : Int} (hle : days ≤ days') :
    (ofDays days).year ≤ (ofDays days').year := by
  have hkey : (ofDays days).key ≤ (ofDays days').key :=
    not_lt.mp fun hless => not_lt.mpr hle (key_ofDays_lt_iff.mp hless)
  exact Prod.Lex.monotone_fst _ _ hkey

/-- From the first day of 1970 to the last of 9999, the year has four digits. -/
theorem year_ofDays_bounds {days : Int} (hfirst : 0 ≤ days) (hlast : days < 2932897) :
    0 ≤ (ofDays days).year ∧ (ofDays days).year < 10000 := by
  have hstart := year_ofDays_mono hfirst
  have hend := year_ofDays_mono (Int.le_sub_one_of_lt hlast)
  rw [show ofDays 0 = ⟨1970, 1, 1⟩ by rfl] at hstart
  rw [show ofDays (2932897 - 1) = ⟨9999, 12, 31⟩ by rfl] at hend
  dsimp only at hstart hend
  omega

end Date

/-! ## Fields of fixed widths -/

/-- The numbers in their widths, each with its mark behind it. -/
def written : List (Nat × Char) → List Nat → List Char
  | (width, mark) :: layout, value :: values =>
    (paddedDecimal width value).toList ++ mark :: written layout values
  | _, _ => []

/-- There is a number for each width, and it fits. -/
def Fits (layout : List (Nat × Char)) (values : List Nat) : Prop :=
  List.Forall₂ (fun field value => 0 < field.1 ∧ value < 10 ^ field.1) layout values

section Written

variable {layout : List (Nat × Char)} {values values' : List Nat}

/-- Numbers that fit are written to one length. -/
theorem length_written (hfits : Fits layout values) (hfits' : Fits layout values') :
    (written layout values).length = (written layout values').length := by
  induction hfits generalizing values' with
  | nil =>
    cases hfits'
    rfl
  | cons hvalue _ ih =>
    cases hfits' with
    | cons hvalue' hmore' =>
      simp only [written, List.length_append, List.length_cons, ih hmore',
        length_paddedDecimal hvalue.1 hvalue.2, length_paddedDecimal hvalue'.1 hvalue'.2]

/-- Fields of fixed widths stand in the order of their numbers. -/
theorem written_lt_written (hfits : Fits layout values) (hfits' : Fits layout values') :
    written layout values < written layout values' ↔ values < values' := by
  induction hfits generalizing values' with
  | nil =>
    cases hfits'
    exact iff_of_false (List.lt_irrefl _) (List.lt_irrefl _)
  | cons hvalue _ ih =>
    cases hfits' with
    | cons hvalue' hmore' =>
      have hlength := (length_paddedDecimal hvalue.1 hvalue.2).trans
        (length_paddedDecimal hvalue'.1 hvalue'.2).symm
      have hsame {m n width : Nat} :
          (paddedDecimal width m).toList = (paddedDecimal width n).toList ↔ m = n :=
        ⟨fun htexts => paddedDecimal_injective (String.toList_inj.mp htexts), fun h => by rw [h]⟩
      rw [written, written, append_lt_append_iff hlength,
        paddedDecimal_lt_iff hvalue.1 hvalue.2 hvalue'.2, hsame, List.cons_lt_cons_self,
        ih hmore', List.cons_lt_cons_iff]

/-- Digits and marks are ASCII. -/
theorem ascii_of_mem_written (hmarks : ∀ field ∈ layout, field.2.toNat < 128) :
    ∀ c ∈ written layout values, c.toNat < 128 := by
  induction layout generalizing values with
  | nil => exact fun c hc => absurd hc List.not_mem_nil
  | cons field layout ih =>
    obtain ⟨hmark, hmore⟩ := List.forall_mem_cons.mp hmarks
    cases values with
    | nil => exact fun c hc => absurd hc List.not_mem_nil
    | cons value values =>
      intro c hc
      rw [written, List.mem_append, List.mem_cons] at hc
      rcases hc with hdigit | rfl | hrest
      · have hrange := toNat_of_isDigit (isDigit_of_mem_paddedDecimal c hdigit)
        omega
      · exact hmark
      · exact ih hmore c hrest

end Written

/-! ## Timestamps -/

namespace Instant

/-- Year, month, day, hour, minute, second and thousandths. -/
def layout : List (Nat × Char) :=
  [(4, '-'), (2, '-'), (2, 'T'), (2, ':'), (2, ':'), (2, '.'), (3, 'Z')]

/-- The number of the day of a point in time. -/
def days (instant : Instant) : Nat := instant.seconds / 86400

def dateValues (instant : Instant) : List Nat :=
  let date := Date.ofDays instant.days
  [date.year.toNat, date.month, date.day]

/-- A date is three numbers. -/
theorem length_dateValues (instant : Instant) : instant.dateValues.length = 3 := rfl

def timeValues (instant : Instant) : List Nat :=
  let second := instant.seconds % 86400
  [second / 3600, second % 3600 / 60, second % 60, instant.milliseconds]

/-- The text of an instant is its numbers in their layout. -/
theorem toList_text (instant : Instant) :
    instant.text.toList = written layout (instant.dateValues ++ instant.timeValues) := by
  have hfields (year month day hour minute second milliseconds : Nat) :
      (paddedDecimal 4 year ++ "-" ++ paddedDecimal 2 month ++ "-" ++ paddedDecimal 2 day ++ "T" ++
        paddedDecimal 2 hour ++ ":" ++ paddedDecimal 2 minute ++ ":" ++ paddedDecimal 2 second ++
        "." ++ paddedDecimal 3 milliseconds ++ "Z").toList =
      written layout [year, month, day, hour, minute, second, milliseconds] := by
    simp only [written, layout, String.toList_append, String.reduceToList, List.append_assoc,
      List.cons_append, List.nil_append]
  exact hfields _ _ _ _ _ _ _

variable {instant instant' : Instant}

/-- These instants are on days before the year 10000. -/
theorem days_lt (hseconds : instant.seconds < 253402300800) : (instant.days : Int) < 2932897 := by
  have hless : instant.days < 2932897 := Nat.div_lt_of_lt_mul hseconds
  exact Int.ofNat_lt.mpr hless

/-- The numbers of an instant fit into their layout. -/
theorem fits_values (hseconds : instant.seconds < 253402300800)
    (hmilliseconds : instant.milliseconds < 1000) :
    Fits layout (instant.dateValues ++ instant.timeValues) := by
  have hyear := Date.year_ofDays_bounds (Int.natCast_nonneg instant.days) (days_lt hseconds)
  have hdate := Date.valid_ofDays instant.days
  have hmonth := hdate.month_le
  have hday := hdate.day_le.trans (Date.monthLength_le _ _)
  simp only [Fits, layout, dateValues, timeValues, List.cons_append, List.nil_append,
    List.forall₂_cons, List.Forall₂.nil, and_true]
  omega

/-- The dates of two days stand in the order of the days. -/
theorem dateValues_lt (hseconds : instant.seconds < 253402300800)
    (hseconds' : instant'.seconds < 253402300800) :
    instant.dateValues < instant'.dateValues ↔ instant.days < instant'.days := by
  have hyear := Date.year_ofDays_bounds (Int.natCast_nonneg instant.days) (days_lt hseconds)
  have hyear' := Date.year_ofDays_bounds (Int.natCast_nonneg instant'.days) (days_lt hseconds')
  have hkey : (Date.ofDays instant.days).key < (Date.ofDays instant'.days).key ↔
      (instant.days : Int) < instant'.days := Date.key_ofDays_lt_iff
  rw [Date.key_lt_key, Int.ofNat_lt] at hkey
  rw [← hkey]
  simp only [dateValues, List.cons_lt_cons_iff, List.not_lt_nil, and_false, or_false]
  omega

/-- Instants have one date if they are on one day. -/
theorem dateValues_inj (hseconds : instant.seconds < 253402300800)
    (hseconds' : instant'.seconds < 253402300800) :
    instant.dateValues = instant'.dateValues ↔ instant.days = instant'.days := by
  have hless := dateValues_lt hseconds hseconds'
  have hmore := dateValues_lt hseconds' hseconds
  constructor
  · intro hsame
    rw [hsame] at hless hmore
    exact Nat.le_antisymm (Nat.not_lt.mp fun h => List.lt_irrefl _ (hmore.mpr h))
      (Nat.not_lt.mp fun h => List.lt_irrefl _ (hless.mpr h))
  · intro hsame
    rw [dateValues, dateValues, hsame]

/-- Times are ordered by the second of the day and the millisecond. -/
theorem timeValues_lt : instant.timeValues < instant'.timeValues ↔
    instant.seconds % 86400 < instant'.seconds % 86400 ∨
      instant.seconds % 86400 = instant'.seconds % 86400 ∧
        instant.milliseconds < instant'.milliseconds := by
  simp only [timeValues, List.cons_lt_cons_iff, List.not_lt_nil, and_false, or_false]
  omega

/-- The numbers of a timestamp stand in the order of time. -/
theorem values_lt (hseconds : instant.seconds < 253402300800)
    (hseconds' : instant'.seconds < 253402300800) :
    instant.dateValues ++ instant.timeValues < instant'.dateValues ++ instant'.timeValues ↔
      instant.seconds < instant'.seconds ∨ instant.seconds = instant'.seconds ∧
        instant.milliseconds < instant'.milliseconds := by
  rw [append_lt_append_iff (by rw [length_dateValues, length_dateValues]),
    dateValues_lt hseconds hseconds', dateValues_inj hseconds hseconds', timeValues_lt]
  unfold days
  omega

/-- The texts of instants are ordered as the instants are. -/
theorem text_lt (hseconds : instant.seconds < 253402300800)
    (hmilliseconds : instant.milliseconds < 1000) (hseconds' : instant'.seconds < 253402300800)
    (hmilliseconds' : instant'.milliseconds < 1000) :
    ofString instant.text < ofString instant'.text ↔
      instant.seconds < instant'.seconds ∨
        instant.seconds = instant'.seconds ∧ instant.milliseconds < instant'.milliseconds := by
  rw [ofString_lt_ofString, String.lt_iff_toList_lt, toList_text, toList_text,
    written_lt_written (fits_values hseconds hmilliseconds)
      (fits_values hseconds' hmilliseconds'), values_lt hseconds hseconds']

/-- The text of an instant has a byte for each character. -/
theorem length_text (instant : Instant) :
    (ofString instant.text).length =
      (written layout (instant.dateValues ++ instant.timeValues)).length := by
  have hascii : ∀ c ∈ instant.text.toList, c.toNat < 128 := by
    rw [toList_text]
    exact ascii_of_mem_written (by decide)
  rw [length_ofString_of_ascii hascii, toList_text]

/-- **The order of timestamps.** Up to the year 9999 the texts of points in time have one length and
stand, byte by byte, in the order of the seconds and then of the thousandths. Different points in
time have different texts. -/
theorem text_chronological (hseconds : instant.seconds < 253402300800)
    (hmilliseconds : instant.milliseconds < 1000) (hseconds' : instant'.seconds < 253402300800)
    (hmilliseconds' : instant'.milliseconds < 1000) :
    (ofString instant.text).length = (ofString instant'.text).length ∧
      (ofString instant.text < ofString instant'.text ↔
        instant.seconds < instant'.seconds ∨
          instant.seconds = instant'.seconds ∧ instant.milliseconds < instant'.milliseconds) ∧
      (instant.text = instant'.text ↔ instant = instant') := by
  have hless := text_lt hseconds hmilliseconds hseconds' hmilliseconds'
  have hmore := text_lt hseconds' hmilliseconds' hseconds hmilliseconds
  refine ⟨?_, hless, fun hsame => ?_, fun hsame => by rw [hsame]⟩
  · rw [length_text, length_text]
    exact length_written (fits_values hseconds hmilliseconds)
      (fits_values hseconds' hmilliseconds')
  · -- Neither of two points in time with one text comes before the other.
    rw [hsame, iff_false_left (List.lt_irrefl _)] at hless hmore
    obtain ⟨seconds, milliseconds⟩ := instant
    obtain ⟨seconds', milliseconds'⟩ := instant'
    rw [Instant.mk.injEq]
    dsimp only at hless hmore
    omega

/-- The last thousandth of the 28th of February and the first one of the 29th. -/
theorem text_chronological_leapDay :
    let evening : Instant := ⟨951782399, 999⟩
    let midnight : Instant := ⟨951782400, 0⟩
    evening.seconds < 253402300800 ∧ evening.milliseconds < 1000 ∧
      midnight.seconds < 253402300800 ∧ midnight.milliseconds < 1000 ∧
      evening.text = "2000-02-28T23:59:59.999Z" ∧ midnight.text = "2000-02-29T00:00:00.000Z" ∧
      (ofString evening.text).length = (ofString midnight.text).length ∧
      ofString evening.text < ofString midnight.text ∧ evening.text ≠ midnight.text := by
  intro evening midnight
  have hevening : evening.seconds < 253402300800 ∧ evening.milliseconds < 1000 := by decide
  have hmidnight : midnight.seconds < 253402300800 ∧ midnight.milliseconds < 1000 := by decide
  have htexts : evening.text = "2000-02-28T23:59:59.999Z" ∧
      midnight.text = "2000-02-29T00:00:00.000Z" := by decide +kernel
  obtain ⟨hlength, hless, hsame⟩ :=
    text_chronological hevening.1 hevening.2 hmidnight.1 hmidnight.2
  refine ⟨hevening.1, hevening.2, hmidnight.1, hmidnight.2, htexts.1, htexts.2, hlength,
    hless.mpr (.inl (by decide)), fun htexts => ?_⟩
  exact absurd (hsame.mp htexts) (by decide)

end Instant

end PlainSync
