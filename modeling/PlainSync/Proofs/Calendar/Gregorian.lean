import Mathlib.Algebra.BigOperators.Intervals
import Mathlib.Tactic.IntervalCases
import PlainSync.Calendar

/-!
# The Gregorian calendar

Years have twelve months, months have their lengths, and every day has a next one. A date is
numbered by the days that pass up to it, year by year and month by month from the beginning of
1970. The date computed for a day is the one date of the calendar that has the day's number, for
every day before and after 1970.
-/

namespace PlainSync.Date

/-! ## The calendar -/

/-- Every fourth year is a leap year, but of the years that end a century only every fourth. -/
def IsLeapYear (year : Int) : Prop := 4 ∣ year ∧ (100 ∣ year → 400 ∣ year)

instance (year : Int) : Decidable (IsLeapYear year) := inferInstanceAs (Decidable (_ ∧ (_ → _)))

/-- The number of days of a month. -/
def monthLength (year : Int) : Nat → Nat
  | 2 => if IsLeapYear year then 29 else 28
  | 4 | 6 | 9 | 11 => 30
  | _ => 31

/-- The number of days of a year. -/
def yearLength (year : Int) : Nat := ∑ month ∈ Finset.Icc 1 12, monthLength year month

/-- The date is in the calendar. -/
structure Valid (date : Date) : Prop where
  one_le_month : 1 ≤ date.month
  month_le : date.month ≤ 12
  one_le_day : 1 ≤ date.day
  day_le : date.day ≤ monthLength date.year date.month

/-- The days from the beginning of 1970 to the beginning of a year: the years from 1970 on, or
backwards from 1969. -/
def daysToYear (year : Int) : Int :=
  ∑ k ∈ Finset.range (year - 1970).toNat, (yearLength (1970 + k) : Int) -
    ∑ k ∈ Finset.range (1970 - year).toNat, (yearLength (1969 - k) : Int)

/-- The days from the beginning of a year to the beginning of one of its months. -/
def daysToMonth (year : Int) (month : Nat) : Nat :=
  ∑ past ∈ Finset.Ico 1 month, monthLength year past

/-- The days from the first of January 1970 to a date. -/
def dayNumber (date : Date) : Int :=
  daysToYear date.year + daysToMonth date.year date.month + (date.day - 1)

/-- The date of the next day. -/
def next (date : Date) : Date :=
  if date.day < monthLength date.year date.month then { date with day := date.day + 1 }
  else if date.month < 12 then ⟨date.year, date.month + 1, 1⟩
  else ⟨date.year + 1, 1, 1⟩

variable {date : Date}

/-- A leap year has one day more than the others. -/
theorem yearLength_eq (year : Int) : yearLength year = if IsLeapYear year then 366 else 365 := by
  by_cases hleap : IsLeapYear year <;>
    simp [yearLength, Finset.sum_Icc_succ_top, monthLength, hleap]

/-- The days of a year, the last of them in leap years only. -/
theorem lt_yearLength {year : Int} {day : Nat} :
    day < yearLength year ↔ day < 365 ∨ day = 365 ∧ IsLeapYear year := by
  rw [yearLength_eq]
  split
  · next hleap =>
    simp only [hleap, and_true]
    omega
  · next hleap => simp only [hleap, and_false, or_false]

/-- Every month has a day. -/
theorem one_le_monthLength (year : Int) (month : Nat) : 1 ≤ monthLength year month := by
  unfold monthLength
  split
  · split <;> decide
  all_goals decide

/-- No month has more than 31 days. -/
theorem monthLength_le (year : Int) (month : Nat) : monthLength year month ≤ 31 := by
  unfold monthLength
  split
  · split <;> decide
  all_goals decide

/-! ## Counting days -/

/-- The days up to a later year are those of the years in between. -/
theorem daysToYear_past (past : Nat) :
    daysToYear (1970 + past) = ∑ k ∈ Finset.range past, (yearLength (1970 + k) : Int) := by
  have hpast : (1970 + (past : Int) - 1970).toNat = past := by omega
  have hnone : (1970 - (1970 + (past : Int))).toNat = 0 := by omega
  rw [daysToYear, hpast, hnone, Finset.sum_range_zero, Int.sub_zero]

/-- The days up to an earlier year are those of the years in between, counted down. -/
theorem daysToYear_coming (coming : Nat) :
    daysToYear (1970 - coming) = -∑ k ∈ Finset.range coming, (yearLength (1969 - k) : Int) := by
  have hcoming : (1970 - (1970 - (coming : Int))).toNat = coming := by omega
  have hnone : (1970 - (coming : Int) - 1970).toNat = 0 := by omega
  rw [daysToYear, hcoming, hnone, Finset.sum_range_zero, Int.zero_sub]

/-- A year begins where the one before it ends. -/
theorem daysToYear_succ (year : Int) :
    daysToYear (year + 1) = daysToYear year + yearLength year := by
  rcases le_or_gt 1970 year with hpast | hcoming
  · obtain ⟨past, rfl⟩ := Int.le.dest hpast
    have hnext : 1970 + (past : Int) + 1 = 1970 + (past + 1 : Nat) := by omega
    rw [hnext, daysToYear_past, daysToYear_past, Finset.sum_range_succ]
  · obtain ⟨coming, rfl⟩ : ∃ coming : Nat, year = 1969 - coming :=
      ⟨(1969 - year).toNat, by omega⟩
    have hthis : 1969 - (coming : Int) = 1970 - (coming + 1 : Nat) := by omega
    have hnext : 1970 - ((coming + 1 : Nat) : Int) + 1 = 1970 - coming := by omega
    have hlast := Finset.sum_range_succ (fun k : Nat => (yearLength (1969 - k) : Int)) coming
    rw [hthis] at hlast ⊢
    rw [hnext, daysToYear_coming, daysToYear_coming, hlast]
    omega

/-- No day of a year stands before its first month. -/
theorem daysToMonth_one (year : Int) : daysToMonth year 1 = 0 := rfl

/-- A month begins where the one before it ends. -/
theorem daysToMonth_succ (year : Int) {month : Nat} (hmonth : 1 ≤ month) :
    daysToMonth year (month + 1) = daysToMonth year month + monthLength year month :=
  Finset.sum_Ico_succ_top hmonth (monthLength year)

/-- The day after a date of the calendar is one. -/
theorem Valid.next (hdate : date.Valid) : date.next.Valid := by
  obtain ⟨hfirst, hlast, hday, -⟩ := hdate
  unfold Date.next
  split
  · next hinside => exact ⟨hfirst, hlast, Nat.le_add_left 1 _, hinside⟩
  · split
    · next hmore => exact ⟨Nat.le_add_left 1 _, hmore, le_rfl, one_le_monthLength _ _⟩
    · exact ⟨le_rfl, Nat.le_add_left 1 11, le_rfl, one_le_monthLength _ _⟩

/-- The day after a date has the next number. -/
theorem dayNumber_next (hdate : date.Valid) : date.next.dayNumber = date.dayNumber + 1 := by
  obtain ⟨hfirst, hlast, hday, hlength⟩ := hdate
  unfold Date.next
  split
  · simp only [dayNumber]
    omega
  · split
    · simp only [dayNumber, daysToMonth_succ _ hfirst]
      omega
    · have hyear : yearLength date.year = daysToMonth date.year (date.month + 1) := by
        rw [show date.month = 12 by omega]
        rfl
      rw [daysToMonth_succ _ hfirst] at hyear
      simp only [dayNumber, daysToYear_succ, daysToMonth_one]
      omega

/-- Every date is the next one of a date. -/
theorem Valid.exists_next_eq (hdate : date.Valid) :
    ∃ previous : Date, previous.Valid ∧ previous.next = date := by
  obtain ⟨year, month, day⟩ := date
  obtain ⟨hfirst, hlast, hday, hlength⟩ := hdate
  dsimp only at hfirst hlast hday hlength
  by_cases hinside : 1 < day
  · refine ⟨⟨year, month, day - 1⟩, ⟨hfirst, hlast, ?_, ?_⟩, ?_⟩
    · exact Nat.le_sub_one_of_lt hinside
    · exact le_trans (Nat.sub_le day 1) hlength
    · rw [Date.next, if_pos (Nat.sub_one_lt_of_le hday hlength), Nat.sub_add_cancel hday]
  · obtain rfl : day = 1 := by omega
    by_cases hmore : 1 < month
    · refine ⟨⟨year, month - 1, monthLength year (month - 1)⟩, ⟨?_, ?_, ?_, le_rfl⟩, ?_⟩
      · exact Nat.le_sub_one_of_lt hmore
      · exact le_trans (Nat.sub_le month 1) hlast
      · exact one_le_monthLength _ _
      · rw [Date.next, if_neg (lt_irrefl _), if_pos (Nat.sub_one_lt_of_le hfirst hlast),
          Nat.sub_add_cancel hfirst]
    · obtain rfl : month = 1 := by omega
      refine ⟨⟨year - 1, 12, 31⟩, ⟨Nat.le_add_left 1 11, le_rfl, Nat.le_add_left 1 30, le_rfl⟩, ?_⟩
      simp [Date.next, monthLength]

/-- Every number is the number of a date. -/
theorem exists_dayNumber_eq (days : Int) : ∃ date : Date, date.Valid ∧ date.dayNumber = days := by
  induction days using Int.induction_on with
  | zero => exact ⟨⟨1970, 1, 1⟩, by constructor <;> decide, rfl⟩
  | succ days ih =>
    obtain ⟨date, hdate, hnumber⟩ := ih
    exact ⟨date.next, hdate.next, by rw [dayNumber_next hdate, hnumber]⟩
  | pred days ih =>
    obtain ⟨date, hdate, hnumber⟩ := ih
    obtain ⟨previous, hprevious, rfl⟩ := hdate.exists_next_eq
    rw [dayNumber_next hprevious] at hnumber
    exact ⟨previous, hprevious, by omega⟩

/-! ## Years that begin in March -/

/-- The year that a date is in if years begin in March. -/
def marchYear (date : Date) : Int := if date.month ≤ 2 then date.year - 1 else date.year

/-- The months from March to a date. -/
def monthsFromMarch (date : Date) : Nat :=
  if date.month ≤ 2 then date.month + 9 else date.month - 3

/-- The days from the first of March to the first of a month, as many months later. Five months
have 153 days from March on and from August on. -/
def daysFromMarch (months : Nat) : Nat := (153 * months + 2) / 5

/-- The days up to a year, in closed form. -/
theorem daysToYear_eq (year : Int) :
    daysToYear year =
      365 * year + (year - 1) / 4 - (year - 1) / 100 + (year - 1) / 400 - 719527 := by
  have hstep (year : Int) : daysToYear (year + 1) = daysToYear year + 365 +
      (year / 4 - (year - 1) / 4) - (year / 100 - (year - 1) / 100) +
        (year / 400 - (year - 1) / 400) := by
    rw [daysToYear_succ, yearLength_eq]
    by_cases hleap : IsLeapYear year
    · rw [if_pos hleap]
      unfold IsLeapYear at hleap
      omega
    · rw [if_neg hleap]
      unfold IsLeapYear at hleap
      omega
  induction year using Int.inductionOn' (b := 1970) with
  | zero => rfl
  | succ year _ ih =>
    rw [hstep, ih, Int.add_sub_cancel]
    omega
  | pred year _ ih =>
    have hback := hstep (year - 1)
    rw [Int.sub_add_cancel] at hback
    omega

/-- The days up to a month, counted in months from March. -/
theorem daysToMonth_eq (year : Int) {month : Nat} (hfirst : 1 ≤ month) (hlast : month ≤ 12) :
    daysToMonth year month =
      if month ≤ 2 then 31 * (month - 1)
      else daysFromMarch (month - 3) + if IsLeapYear year then 60 else 59 := by
  interval_cases month <;>
    simp [daysToMonth, daysFromMarch, Finset.sum_Ico_succ_top, monthLength] <;> split <;> rfl

/-- The number of a date in terms of its year from March on. -/
theorem dayNumber_eq (hdate : date.Valid) :
    date.dayNumber + 719468 =
      365 * date.marchYear + date.marchYear / 4 - date.marchYear / 100 + date.marchYear / 400 +
        (daysFromMarch date.monthsFromMarch + (date.day - 1) : Nat) := by
  obtain ⟨year, month, day⟩ := date
  obtain ⟨hfirst, hlast, hday, -⟩ := hdate
  simp only [dayNumber, daysToYear_eq, daysToMonth_eq _ hfirst hlast, marchYear, monthsFromMarch,
    daysFromMarch] at *
  split
  · omega
  · by_cases hleap : IsLeapYear year
    · rw [if_pos hleap]
      unfold IsLeapYear at hleap
      omega
    · rw [if_neg hleap]
      unfold IsLeapYear at hleap
      omega

/-- A date comes before the next month, and before the end of its year in February. -/
theorem Valid.daysFromMarch_lt (hdate : date.Valid) :
    daysFromMarch date.monthsFromMarch + (date.day - 1) <
        daysFromMarch (date.monthsFromMarch + 1) ∧
      daysFromMarch date.monthsFromMarch + (date.day - 1) < yearLength (date.marchYear + 1) := by
  obtain ⟨year, month, day⟩ := date
  obtain ⟨hfirst, hlast, hday, hlength⟩ := hdate
  rw [lt_yearLength]
  dsimp only at *
  by_cases hfebruary : month = 2
  · subst hfebruary
    simp only [marchYear, monthsFromMarch, daysFromMarch, monthLength, le_rfl, if_true,
      Int.sub_add_cancel] at hlength ⊢
    split at hlength
    · next hleap =>
      simp only [hleap, and_true]
      omega
    · omega
  · -- Every other month ends before the 365th day, whatever year it is.
    have hother : daysFromMarch (Date.monthsFromMarch ⟨year, month, day⟩) + (day - 1) <
        daysFromMarch (Date.monthsFromMarch ⟨year, month, day⟩ + 1) ∧
      daysFromMarch (Date.monthsFromMarch ⟨year, month, day⟩) + (day - 1) < 365 := by
      interval_cases month <;> simp [monthsFromMarch, daysFromMarch, monthLength] at * <;> omega
    exact hother.imp_right .inl

/-! ## Reading a number -/

/-- The year of a day of the cycle. Beyond 365 days a year there is one day in four years, but none
at the end of a century that does not end the cycle. -/
theorem yearOfCycle_eq {year day dayOfCycle : Nat} (hyear : year < 400)
    (hday : day < yearLength (year + 1))
    (hcycle : dayOfCycle = 365 * year + year / 4 - year / 100 + day) :
    (dayOfCycle - dayOfCycle / 1460 + dayOfCycle / 36524 - dayOfCycle / 146096) / 365 = year := by
  obtain ⟨century, fours, rest, hcentury, hfours, hrest, rfl⟩ :
      ∃ century fours rest, century < 4 ∧ fours < 25 ∧ rest < 4 ∧
        year = 100 * century + 4 * fours + rest :=
    ⟨year / 100, year % 100 / 4, year % 4, by omega, by omega, by omega, by omega⟩
  have hlast : day < 365 ∨ day = 365 ∧ rest = 3 ∧ (fours < 24 ∨ century = 3) := by
    rw [lt_yearLength, IsLeapYear] at hday
    omega
  have hdays : dayOfCycle = 36524 * century + (1461 * fours + 365 * rest + day) := by omega
  clear hday hcycle hyear
  have hcenturies : dayOfCycle / 36524 = century + dayOfCycle / 146096 := by
    have hrest : 1461 * fours + 365 * rest + day < 36524 ∨
        1461 * fours + 365 * rest + day = 36524 ∧ century = 3 := by omega
    omega
  obtain ⟨late, hlate⟩ : ∃ late, late = (24 * century + fours + 365 * rest + day) / 1460 :=
    ⟨_, rfl⟩
  have hfourths : dayOfCycle / 1460 = 25 * century + fours + late := by omega
  have hfits : late ≤ day ∧ day - late < 365 := by
    clear hfourths hcenturies hdays
    omega
  omega

/-- Cycles of 400 years have leap years alike. -/
theorem yearLength_add_cycles (year cycles : Int) :
    yearLength (400 * cycles + year) = yearLength year := by
  have hleap : IsLeapYear (400 * cycles + year) ↔ IsLeapYear year := by
    unfold IsLeapYear
    omega
  simp only [yearLength_eq, hleap]

/-- A day that is counted in cycles, years and months from March on. -/
theorem ofDays_eq {days cycle : Int} {year months day : Nat} (hyear : year < 400)
    (hmonth : daysFromMarch months + day < daysFromMarch (months + 1))
    (hday : daysFromMarch months + day < yearLength (year + 1))
    (hdays : days + 719468 = 146097 * cycle +
      (365 * year + year / 4 - year / 100 + (daysFromMarch months + day) : Nat)) :
    ofDays days =
      let month := if months < 10 then months + 3 else months - 9
      ⟨year + cycle * 400 + (if month ≤ 2 then 1 else 0), month, day + 1⟩ := by
  have hless : 365 * year + year / 4 - year / 100 + (daysFromMarch months + day) < 146097 := by
    rw [lt_yearLength, IsLeapYear] at hday
    omega
  have hcycle : (days + 719468) / 146097 = cycle := by omega
  have hrest : ((days + 719468) % 146097).toNat =
      365 * year + year / 4 - year / 100 + (daysFromMarch months + day) := by omega
  have hmonths : (5 * (daysFromMarch months + day) + 2) / 153 = months := by
    unfold daysFromMarch at hmonth ⊢
    omega
  have hyears := yearOfCycle_eq hyear hday rfl
  have hpassed : (153 * months + 2) / 5 = daysFromMarch months := rfl
  simp only [ofDays, hcycle, hrest, hyears, Nat.add_sub_cancel_left, hmonths, hpassed]

/-- The months from March give the month back. -/
theorem Valid.month_eq (hdate : date.Valid) :
    (if date.monthsFromMarch < 10 then date.monthsFromMarch + 3 else date.monthsFromMarch - 9) =
      date.month := by
  obtain ⟨hfirst, hlast, -, -⟩ := hdate
  unfold monthsFromMarch
  split <;> split <;> omega

/-- The year that begins in March gives the year back. -/
theorem marchYear_eq (date : Date) :
    date.marchYear + (if date.month ≤ 2 then 1 else 0) = date.year := by
  unfold marchYear
  split
  · exact Int.sub_add_cancel date.year 1
  · exact Int.add_zero date.year

/-- The date of the number of a date is the date. -/
theorem ofDays_dayNumber (hdate : date.Valid) : ofDays date.dayNumber = date := by
  obtain ⟨hmonth, hday⟩ := hdate.daysFromMarch_lt
  have hnumber := dayNumber_eq hdate
  obtain ⟨cycle, year, hyear, hmarch⟩ :
      ∃ (cycle : Int) (year : Nat), year < 400 ∧ date.marchYear = 400 * cycle + year :=
    ⟨date.marchYear / 400, (date.marchYear % 400).toNat, by omega, by omega⟩
  rw [hmarch, add_assoc, yearLength_add_cycles] at hday
  have hdays : date.dayNumber + 719468 = 146097 * cycle + (365 * year + year / 4 - year / 100 +
      (daysFromMarch date.monthsFromMarch + (date.day - 1)) : Nat) := by
    rw [hmarch] at hnumber
    omega
  rw [ofDays_eq hyear hmonth hday hdays]
  have hyearBack : year + cycle * 400 + (if date.month ≤ 2 then 1 else 0) = date.year := by
    rw [← marchYear_eq date, hmarch, Int.mul_comm, Int.add_comm (year : Int)]
  simp only [hdate.month_eq, hyearBack, Nat.sub_add_cancel hdate.one_le_day]

/-- Every day has a date of the calendar. -/
theorem valid_ofDays (days : Int) : (ofDays days).Valid := by
  obtain ⟨date, hdate, rfl⟩ := exists_dayNumber_eq days
  rwa [ofDays_dayNumber hdate]

/-- The date of a day has its number. -/
theorem dayNumber_ofDays (days : Int) : (ofDays days).dayNumber = days := by
  obtain ⟨date, hdate, rfl⟩ := exists_dayNumber_eq days
  rw [ofDays_dayNumber hdate]

/-- The date of the next day is the next date. -/
theorem ofDays_succ (days : Int) : ofDays (days + 1) = (ofDays days).next := by
  have hdate := valid_ofDays days
  rw [← ofDays_dayNumber hdate.next, dayNumber_next hdate, dayNumber_ofDays]

/-- **The calendar.** Every day has a date of the calendar, which has the day's number; the next day
has the next date; and no two days have one date. No date of the calendar is left out. -/
theorem ofDays_gregorian :
    (∀ days : Int, (ofDays days).Valid ∧ (ofDays days).dayNumber = days ∧
      ofDays (days + 1) = (ofDays days).next) ∧
    Function.Injective ofDays ∧
    ∀ date : Date, date.Valid ↔ ofDays date.dayNumber = date := by
  refine ⟨fun days => ⟨valid_ofDays days, dayNumber_ofDays days, ofDays_succ days⟩, ?_, ?_⟩
  · exact Function.LeftInverse.injective dayNumber_ofDays
  · exact fun date => ⟨ofDays_dayNumber, fun hdate => hdate ▸ valid_ofDays date.dayNumber⟩

end PlainSync.Date
