import Mathlib

/-!
# Dates

`DateMath` takes a time in milliseconds since 1970 apart into a year, a month and a day. The double
arithmetic is read as exact arithmetic: every double that is kept is then an integer, and the floor
of a quotient is `/`. The operators of `int` and the casts to integers truncate.

The calendar is stated on its own, by the rule for leap years and the lengths of years and months;
`date_decomposition` compares the two.
-/

namespace JscAndroid.Wtf.DateMath

open Finset

/-! ## The source -/

def msPerSecond : ℤ := 1000
def secondsPerMinute : ℤ := 60
def minutesPerHour : ℤ := 60
def hoursPerDay : ℤ := 24
def msPerMinute : ℤ := msPerSecond * secondsPerMinute
def msPerHour : ℤ := msPerMinute * minutesPerHour
def msPerDay : ℤ := msPerHour * hoursPerDay
def maxECMAScriptTime : ℤ := 8640000000000000

def leapDaysBefore1971By4Rule : ℤ := 1970 / 4
def excludedLeapDaysBefore1971By100Rule : ℤ := 1970 / 100
def leapDaysBefore1971By400Rule : ℤ := 1970 / 400

def daysFrom1970ToYear (year : ℤ) : ℤ :=
  let yearMinusOne := year - 1
  let yearsToAddBy4Rule := yearMinusOne / 4 - leapDaysBefore1971By4Rule
  let yearsToExcludeBy100Rule := yearMinusOne / 100 - excludedLeapDaysBefore1971By100Rule
  let yearsToAddBy400Rule := yearMinusOne / 400 - leapDaysBefore1971By400Rule
  365 * (year - 1970) + yearsToAddBy4Rule - yearsToExcludeBy100Rule + yearsToAddBy400Rule

def isLeapYear (year : ℤ) : Bool :=
  if year.tmod 4 ≠ 0 then false
  else if year.tmod 400 = 0 then true
  else if year.tmod 100 = 0 then false
  else true

def daysInYear (year : ℤ) : ℤ := 365 + (isLeapYear year).toNat

def msToDays (ms : ℤ) : ℤ := ms / msPerDay

def firstDayOfMonth : List (List ℤ) :=
  [[0, 31, 59, 90, 120, 151, 181, 212, 243, 273, 304, 334],
    [0, 31, 60, 91, 121, 152, 182, 213, 244, 274, 305, 335]]

/-- `dayInYear(year, month, day)`. -/
def dayInYearOfDate (year month day : ℤ) : ℤ :=
  (firstDayOfMonth.getD (isLeapYear year).toNat []).getD month.toNat 0 + day - 1

/-- `dayInYear(ms, year)`. -/
def dayInYear (ms year : ℤ) : ℤ := msToDays ms - daysFrom1970ToYear year

def dateToDaysFrom1970 (year month day : ℤ) : ℤ :=
  let year := year + month.tdiv 12
  let month := month.tmod 12
  let (year, month) := if month < 0 then (year - 1, month + 12) else (year, month)
  daysFrom1970ToYear year + dayInYearOfDate year month day

/-- The mean year has `365.2425` days. -/
def msToYear (ms : ℤ) : ℤ :=
  let approxYear := ms / (msPerDay * 3652425 / 10000) + 1970
  let msFromApproxYearTo1970 := msPerDay * daysFrom1970ToYear approxYear
  if msFromApproxYearTo1970 > ms then approxYear - 1
  else if msFromApproxYearTo1970 + msPerDay * daysInYear approxYear ≤ ms then approxYear + 1
  else approxYear

/-- `msToSeconds`, `msToMinutes` and `msToHours`. -/
def msToUnits (msPerUnit period ms : ℤ) : ℤ :=
  let result := (ms / msPerUnit).tmod period
  if result < 0 then result + period else result

def msToMinutes : ℤ → ℤ := msToUnits msPerMinute minutesPerHour
def msToHours : ℤ → ℤ := msToUnits msPerHour hoursPerDay
def msToSeconds : ℤ → ℤ := msToUnits msPerSecond secondsPerMinute

def msToWeekDay (ms : ℤ) : ℤ :=
  let wd := (msToDays ms + 4).tmod 7
  if wd < 0 then wd + 7 else wd

/-- The tests `d < (step += daysInThisMonth)`, month after month. -/
def monthFrom (d : ℤ) : ℤ → ℤ → List ℤ → ℤ
  | month, _, [] => month
  | month, step, daysInThisMonth :: rest =>
    if d < step + daysInThisMonth then month
    else monthFrom d (month + 1) (step + daysInThisMonth) rest

def monthFromDayInYear (dayInYear : ℤ) (leapYear : Bool) : ℤ :=
  monthFrom dayInYear 0 0 [31, if leapYear then 29 else 28, 31, 30, 31, 30, 31, 31, 30, 31, 30]

/-- The calls of `checkMonth`, month after month. -/
def dayInMonthFrom (d : ℤ) : ℤ → List ℤ → ℤ
  | next, [] => d - next
  | next, daysInThisMonth :: rest =>
    if d ≤ next + daysInThisMonth then d - next else dayInMonthFrom d (next + daysInThisMonth) rest

def dayInMonthFromDayInYear (dayInYear : ℤ) (leapYear : Bool) : ℤ :=
  if dayInYear ≤ 30 then dayInYear + 1
  else dayInMonthFrom dayInYear 30
    [if leapYear then 29 else 28, 31, 30, 31, 30, 31, 31, 30, 31, 30]

structure TimeClippedPositiveMilliseconds where
  value : ℤ
  nonneg : 0 ≤ value

namespace TimeClippedPositiveMilliseconds

/-- The casts truncate the quotients by `4.0`, `100.0` and `400.0` after the subtraction. -/
def daysFrom1970ToYear (year : ℤ) : ℤ :=
  let yearMinusOne := year - 1
  let yearsToAddBy4Rule := (yearMinusOne - leapDaysBefore1971By4Rule * 4).tdiv 4
  let yearsToExcludeBy100Rule :=
    (yearMinusOne - excludedLeapDaysBefore1971By100Rule * 100).tdiv 100
  let yearsToAddBy400Rule := (yearMinusOne - leapDaysBefore1971By400Rule * 400).tdiv 400
  365 * (year - 1970) + yearsToAddBy4Rule - yearsToExcludeBy100Rule + yearsToAddBy400Rule

variable (ms : TimeClippedPositiveMilliseconds)

def msToDays : ℤ := ms.value.tdiv msPerDay
def dayInYear (year : ℤ) : ℤ := ms.msToDays - daysFrom1970ToYear year
def msToUnits (msPerUnit period : ℤ) : ℤ := (ms.value.tdiv msPerUnit).tmod period
def msToMinutes : ℤ := ms.msToUnits msPerMinute minutesPerHour
def msToHours : ℤ := ms.msToUnits msPerHour hoursPerDay
def msToSeconds : ℤ := ms.msToUnits msPerSecond secondsPerMinute
def msToWeekDay : ℤ := (ms.msToDays + 4).tmod 7

end TimeClippedPositiveMilliseconds

/-! ## The calendar -/

/-- Every fourth year is a leap year, except for the hundredth ones that are not four hundredth. -/
def IsLeap (y : ℤ) : Prop := 4 ∣ y ∧ (¬ 100 ∣ y ∨ 400 ∣ y)

instance (y : ℤ) : Decidable (IsLeap y) := inferInstanceAs (Decidable (_ ∧ _))

def monthLengths (leap : Bool) : List ℤ :=
  [31, if leap then 29 else 28, 31, 30, 31, 30, 31, 31, 30, 31, 30, 31]

def yearLength (y : ℤ) : ℤ := (monthLengths (IsLeap y)).sum

/-- The days from 1970-01-01 to the first day of a year. -/
def daysToYear (y : ℤ) : ℤ :=
  ∑ i ∈ range (y - 1970).toNat, yearLength (1970 + i) -
    ∑ i ∈ range (1970 - y).toNat, yearLength (1969 - i)

/-- The days from 1970-01-01 to the first day of a month, counted from `0`. -/
def daysToMonth (y m : ℤ) : ℤ := daysToYear y + ((monthLengths (IsLeap y)).take m.toNat).sum

/-! ## Years -/

theorem isLeapYear_eq (y : ℤ) : isLeapYear y = decide (IsLeap y) := by
  simp only [isLeapYear, IsLeap, ne_eq, ← Int.dvd_iff_tmod_eq_zero]
  by_cases h4 : 4 ∣ y
  · simp only [h4, not_true_eq_false, if_false]
    split_ifs with h400 h100
    · simp [h400]
    · simp [h400, h100]
    · simp [h100]
  · simp [h4]

theorem daysInYear_eq (y : ℤ) : daysInYear y = yearLength y := by
  rw [daysInYear, yearLength, isLeapYear_eq]
  cases decide (IsLeap y) <;> rfl

theorem daysFrom1970ToYear_def (y : ℤ) : daysFrom1970ToYear y = 365 * (y - 1970) +
    ((y - 1) / 4 - 492) - ((y - 1) / 100 - 19) + ((y - 1) / 400 - 4) := rfl

theorem daysFrom1970ToYear_succ (y : ℤ) :
    daysFrom1970ToYear (y + 1) = daysFrom1970ToYear y + daysInYear y := by
  rw [daysFrom1970ToYear_def, daysFrom1970ToYear_def, daysInYear, isLeapYear_eq]
  by_cases hleap : IsLeap y
  · obtain ⟨h4, h100⟩ := id hleap
    simp only [hleap, decide_true, Bool.toNat_true]
    omega
  · have hnot : ¬ (4 ∣ y ∧ (¬ 100 ∣ y ∨ 400 ∣ y)) := hleap
    simp only [hleap, decide_false, Bool.toNat_false]
    omega

/-- The formula counts the days of all years in between. -/
theorem daysFrom1970ToYear_eq (y : ℤ) : daysFrom1970ToYear y = daysToYear y := by
  have hup : ∀ n : ℕ, daysFrom1970ToYear (1970 + n) =
      ∑ i ∈ range n, yearLength (1970 + i) := by
    intro n
    induction n with
    | zero => rfl
    | succ n ih =>
      rw [sum_range_succ, ← ih, ← daysInYear_eq, ← daysFrom1970ToYear_succ]
      rfl
  have hdown : ∀ n : ℕ, daysFrom1970ToYear (1970 - n) =
      -∑ i ∈ range n, yearLength (1969 - i) := by
    intro n
    induction n with
    | zero => rfl
    | succ n ih =>
      have hstep := daysFrom1970ToYear_succ (1970 - (n + 1 : ℕ))
      rw [show (1970 : ℤ) - (n + 1 : ℕ) + 1 = 1970 - n by omega] at hstep
      rw [sum_range_succ, ← daysInYear_eq, show (1969 : ℤ) - n = 1970 - (n + 1 : ℕ) by omega]
      omega
  unfold daysToYear
  rcases le_total 1970 y with h | h
  · rw [show (1970 - y).toNat = 0 by omega, sum_range_zero, sub_zero, ← hup]
    congr 1
    omega
  · rw [show (y - 1970).toNat = 0 by omega, sum_range_zero, zero_sub, ← hdown]
    congr 1
    omega

/-- The year that has the time in it. -/
def IsYearOf (ms y : ℤ) : Prop :=
  86400000 * daysFrom1970ToYear y ≤ ms ∧ ms < 86400000 * daysFrom1970ToYear (y + 1)

/-- **The guess from the mean year** is off by at most one, and the two tests correct it. -/
theorem isYearOf_msToYear (ms : ℤ) : IsYearOf ms (msToYear ms) := by
  obtain ⟨guess, hguess⟩ : ∃ guess, guess = ms / 31556952000 + 1970 := ⟨_, rfl⟩
  have hlow : 86400000 * daysFrom1970ToYear (guess - 1) ≤ ms := by
    rw [daysFrom1970ToYear_def]
    omega
  have hhigh : ms < 86400000 * daysFrom1970ToYear (guess + 1 + 1) := by
    rw [daysFrom1970ToYear_def]
    omega
  have hyear : msToYear ms = if 86400000 * daysFrom1970ToYear guess > ms then guess - 1
      else if 86400000 * daysFrom1970ToYear guess + 86400000 * daysInYear guess ≤ ms then guess + 1
      else guess := by
    rw [hguess]
    rfl
  have hsucc := daysFrom1970ToYear_succ guess
  rw [hyear]
  split_ifs with h1 h2
  · exact ⟨hlow, by rwa [sub_add_cancel]⟩
  · exact ⟨by omega, hhigh⟩
  · exact ⟨by omega, by omega⟩

/-! ## Months -/

/-- **Both ladders** stop at the month that has the day in it. -/
theorem ladders_stop (d last : ℤ) (lengths : List ℤ) (month step : ℤ) (h : step ≤ d)
    (hd : d < step + (lengths.sum + last)) :
    ∃ i : ℕ, i ≤ lengths.length ∧ monthFrom d month step lengths = month + i ∧
      step + (lengths.take i).sum ≤ d ∧
      d < step + (lengths.take i).sum + (lengths ++ [last]).getD i 0 ∧
      dayInMonthFrom d (step - 1) lengths = d - (step + (lengths.take i).sum) + 1 := by
  induction lengths generalizing month step with
  | nil =>
    simp only [List.sum_nil] at hd
    refine ⟨0, by simp, ?_⟩
    simp only [monthFrom, dayInMonthFrom, List.take_nil, List.sum_nil, List.nil_append,
      List.getD_cons_zero]
    omega
  | cons n rest ih =>
    unfold monthFrom dayInMonthFrom
    rw [List.sum_cons] at hd
    by_cases hn : d < step + n
    · refine ⟨0, by simp, ?_⟩
      simp only [List.take_zero, List.sum_nil, List.cons_append, List.getD_cons_zero]
      omega
    · obtain ⟨i, hi, ih⟩ := ih (month + 1) (step + n) (by omega) (by omega)
      rw [show step + n - 1 = step - 1 + n by omega] at ih
      refine ⟨i + 1, by simpa using hi, ?_⟩
      simp only [List.take_succ_cons, List.sum_cons, List.cons_append, List.getD_cons_succ]
      omega

theorem monthFromDayInYear_spec {d : ℤ} {leap : Bool} (h : 0 ≤ d)
    (hd : d < (monthLengths leap).sum) :
    ∃ i : ℕ, i < 12 ∧ monthFromDayInYear d leap = i ∧ ((monthLengths leap).take i).sum ≤ d ∧
      d < ((monthLengths leap).take i).sum + (monthLengths leap).getD i 0 ∧
      dayInMonthFromDayInYear d leap = d - ((monthLengths leap).take i).sum + 1 := by
  obtain ⟨i, hi, hstop⟩ := ladders_stop d 31
    [31, if leap then 29 else 28, 31, 30, 31, 30, 31, 31, 30, 31, 30] 0 0 h (by
      cases leap <;> simpa [monthLengths] using hd)
  rw [← List.take_append_of_le_length hi] at hstop
  simp only [zero_add] at hstop
  exact ⟨i, Nat.lt_succ_of_le hi, hstop⟩

theorem firstDayOfMonth_eq : ∀ (leap : Bool) (i : Fin 12),
    (firstDayOfMonth.getD leap.toNat []).getD i 0 = ((monthLengths leap).take i).sum := by
  decide

/-- **The days up to a date**, for a month outside the year as well. -/
theorem dateToDaysFrom1970_eq (y m k : ℤ) :
    dateToDaysFrom1970 y m k = daysToMonth (y + m / 12) (m % 12) + k - 1 := by
  have hpair : (if m.tmod 12 < 0 then (y + m.tdiv 12 - 1, m.tmod 12 + 12)
      else (y + m.tdiv 12, m.tmod 12)) = (y + m / 12, m % 12) := by
    rw [Int.tdiv_eq_ediv, Int.tmod_eq_emod]
    by_cases hm : 0 ≤ m ∨ 12 ∣ m
    · rw [if_pos hm, if_pos hm, if_neg (by simp; omega)]
      simp
    · have hsign : Int.sign 12 = 1 := rfl
      rw [if_neg hm, if_neg hm, if_pos (by simp; omega), hsign, ← add_assoc]
      simp
  have hfirst := firstDayOfMonth_eq (isLeapYear (y + m / 12)) ⟨(m % 12).toNat, by omega⟩
  simp only [dateToDaysFrom1970, hpair]
  rw [dayInYearOfDate, hfirst, isLeapYear_eq, daysFrom1970ToYear_eq, daysToMonth, ← add_sub_assoc,
    ← add_assoc]

/-! ## The overloads for positive times -/

theorem wrap_of_nonneg {a period : ℤ} (h : 0 ≤ a) (hp : period ≠ 0) :
    (if a.tmod period < 0 then a.tmod period + period else a.tmod period) = a.tmod period := by
  rw [Int.tmod_eq_emod_of_nonneg h, if_neg (Int.emod_nonneg a hp).not_gt]

namespace TimeClippedPositiveMilliseconds

variable (ms : TimeClippedPositiveMilliseconds)

theorem msToDays_eq : ms.msToDays = DateMath.msToDays ms.value :=
  Int.tdiv_eq_ediv_of_nonneg ms.nonneg

theorem msToUnits_eq {msPerUnit period : ℤ} (h : 0 ≤ msPerUnit) (hp : period ≠ 0) :
    ms.msToUnits msPerUnit period = DateMath.msToUnits msPerUnit period ms.value := by
  rw [msToUnits, DateMath.msToUnits, wrap_of_nonneg (Int.ediv_nonneg ms.nonneg h) hp,
    Int.tdiv_eq_ediv_of_nonneg ms.nonneg]

theorem msToWeekDay_eq : ms.msToWeekDay = DateMath.msToWeekDay ms.value := by
  have hdays : 0 ≤ DateMath.msToDays ms.value := Int.ediv_nonneg ms.nonneg (by decide)
  rw [msToWeekDay, DateMath.msToWeekDay, wrap_of_nonneg (by omega) (by decide), msToDays_eq]

theorem daysFrom1970ToYear_eq {year : ℤ} (h : 1970 ≤ year) :
    daysFrom1970ToYear year = DateMath.daysFrom1970ToYear year := by
  have h4 : leapDaysBefore1971By4Rule = 492 := rfl
  have h100 : excludedLeapDaysBefore1971By100Rule = 19 := rfl
  have h400 : leapDaysBefore1971By400Rule = 4 := rfl
  simp only [daysFrom1970ToYear, daysFrom1970ToYear_def]
  rw [Int.tdiv_eq_ediv_of_nonneg (by omega), Int.tdiv_eq_ediv_of_nonneg (by omega),
    Int.tdiv_eq_ediv_of_nonneg (by omega)]
  omega

end TimeClippedPositiveMilliseconds

/-- **The parts of a time are its date in the calendar.** The year fits an `int`, the day is one of
the year and of the month, and the way back gives the day of the time; the overloads for positive
times return the same; and the days up to a month are those of the calendar. -/
theorem date_decomposition (t : ℤ) (hmin : -maxECMAScriptTime ≤ t) (hmax : t ≤ maxECMAScriptTime) :
    (let y := msToYear t
      let d := dayInYear t y
      let m := monthFromDayInYear d (isLeapYear y)
      let k := dayInMonthFromDayInYear d (isLeapYear y)
      (-271821 ≤ y ∧ y ≤ 275760) ∧ (0 ≤ d ∧ d < daysInYear y) ∧ (0 ≤ m ∧ m < 12) ∧
        (1 ≤ k ∧ k ≤ (monthLengths (IsLeap y)).getD m.toNat 0) ∧
        dateToDaysFrom1970 y m k = msToDays t) ∧
    (∀ ms : TimeClippedPositiveMilliseconds, ms.value = t → 1970 ≤ msToYear t ∧
      ms.msToDays = msToDays t ∧ (∀ year, 1970 ≤ year → ms.dayInYear year = dayInYear t year) ∧
      ms.msToHours = msToHours t ∧ ms.msToMinutes = msToMinutes t ∧
      ms.msToSeconds = msToSeconds t ∧ ms.msToWeekDay = msToWeekDay t) ∧
    ∀ y m, dateToDaysFrom1970 y m 1 = daysToMonth (y + m / 12) (m % 12) := by
  obtain ⟨hfrom, hto⟩ := isYearOf_msToYear t
  have hsucc := daysFrom1970ToYear_succ (msToYear t)
  have hdays : msToDays t = t / 86400000 := rfl
  have hd : dayInYear t (msToYear t) = t / 86400000 - daysFrom1970ToYear (msToYear t) := rfl
  have hd' : dayInYear t (msToYear t) < daysInYear (msToYear t) := by omega
  have htime : maxECMAScriptTime = 8640000000000000 := rfl
  refine ⟨⟨?_, ⟨by omega, hd'⟩, ?_⟩, ?_, ?_⟩
  · rw [daysFrom1970ToYear_def] at hfrom hto
    omega
  · rw [daysInYear_eq] at hd'
    obtain ⟨i, hi, hm, hle, hlt, hk⟩ := monthFromDayInYear_spec (by omega) hd'
    rw [isLeapYear_eq, hm, Int.toNat_natCast, dateToDaysFrom1970_eq]
    refine ⟨by omega, by omega, ?_⟩
    rw [Int.ediv_eq_zero_of_lt (by omega) (by omega), Int.emod_eq_of_lt (by omega) (by omega),
      add_zero, daysToMonth, ← daysFrom1970ToYear_eq, Int.toNat_natCast]
    omega
  · rintro ms rfl
    refine ⟨?_, ms.msToDays_eq, fun year hyear => ?_, ms.msToUnits_eq (by decide) (by decide),
      ms.msToUnits_eq (by decide) (by decide), ms.msToUnits_eq (by decide) (by decide),
      ms.msToWeekDay_eq⟩
    · have hnonneg := ms.nonneg
      rw [daysFrom1970ToYear_def] at hto
      omega
    · exact congrArg₂ _ ms.msToDays_eq
        (TimeClippedPositiveMilliseconds.daysFrom1970ToYear_eq hyear)
  · intro y m
    rw [dateToDaysFrom1970_eq, add_sub_cancel_right]

/-- The last day of February 2000. -/
theorem date_decomposition_leap_day : dateToDaysFrom1970 2000 1 29 = msToDays 951782400000 :=
  (date_decomposition 951782400000 (by decide) (by decide)).1.2.2.2.2

end JscAndroid.Wtf.DateMath
