import Mathlib.Tactic

/-! The Gregorian calendar. A day has a tomorrow; the number of a day counts how many times one has to wait for tomorrow
from 1 January of year 0 on. -/

namespace NginxDtls.Calendar

/-- The rule of leap years. -/
def Leap (y : ℕ) : Prop := y % 4 = 0 ∧ (y % 100 ≠ 0 ∨ y % 400 = 0)

instance (y : ℕ) : Decidable (Leap y) := inferInstanceAs (Decidable (_ ∧ _))

def yearDays (y : ℕ) : ℕ := if Leap y then 366 else 365

def monthDays (y m : ℕ) : ℕ :=
  if m = 2 then (if Leap y then 29 else 28) else if m = 4 ∨ m = 6 ∨ m = 9 ∨ m = 11 then 30 else 31

@[ext]
structure Date where
  year : ℕ
  month : ℕ
  day : ℕ
  month_pos : 0 < month
  month_le : month ≤ 12
  day_pos : 0 < day
  day_le : day ≤ monthDays year month

theorem monthDays_pos (y m : ℕ) : 0 < monthDays y m := by
  rw [monthDays]
  split_ifs <;> decide

theorem monthDays_le (y m : ℕ) : monthDays y m ≤ 31 := by
  rw [monthDays]
  split_ifs <;> decide

/-- Tomorrow. -/
def Date.next (d : Date) : Date :=
  if hday : d.day < monthDays d.year d.month then ⟨d.year, d.month, d.day + 1, d.month_pos, d.month_le, by omega, hday⟩
  else if hmonth : d.month < 12 then
    ⟨d.year, d.month + 1, 1, by omega, hmonth, Nat.one_pos, monthDays_pos _ _⟩
  else ⟨d.year + 1, 1, 1, Nat.one_pos, by omega, Nat.one_pos, monthDays_pos _ _⟩

/-! ### Numbers of days -/

/-- The days of the years before `y`. -/
def daysBeforeYear : ℕ → ℕ
  | 0 => 0
  | y + 1 => daysBeforeYear y + yearDays y

/-- The days of the months before the month behind `m`. -/
def daysThroughMonth (y : ℕ) : ℕ → ℕ
  | 0 => 0
  | m + 1 => daysThroughMonth y m + monthDays y (m + 1)

def Date.number (d : Date) : ℕ := daysBeforeYear d.year + daysThroughMonth d.year (d.month - 1) + (d.day - 1)

theorem daysThroughMonth_twelve (y : ℕ) : daysThroughMonth y 12 = yearDays y := by
  by_cases hleap : Leap y
  · simp [daysThroughMonth, monthDays, yearDays, hleap]
  · simp [daysThroughMonth, monthDays, yearDays, hleap]

theorem daysThroughMonth_pred (y : ℕ) {m : ℕ} (h : 0 < m) :
    daysThroughMonth y m = daysThroughMonth y (m - 1) + monthDays y m := by
  obtain ⟨m, rfl⟩ := Nat.exists_eq_succ_of_ne_zero h.ne'
  rfl

theorem number_next (d : Date) : d.next.number = d.number + 1 := by
  have hpos := d.day_pos
  have hle := d.day_le
  have hlast := daysThroughMonth_pred d.year d.month_pos
  rw [Date.next]
  split
  · simp only [Date.number]
    omega
  · split
    · simp only [Date.number, Nat.add_sub_cancel]
      omega
    · have htwelve : d.month = 12 := by have := d.month_le; omega
      have hyear : daysThroughMonth d.year d.month = yearDays d.year := by rw [htwelve, daysThroughMonth_twelve]
      simp only [Date.number, daysBeforeYear, Nat.sub_self, daysThroughMonth]
      omega

theorem daysThroughMonth_mono (y : ℕ) : Monotone (daysThroughMonth y) :=
  monotone_nat_of_le_succ fun _ => Nat.le_add_right _ _

theorem daysBeforeYear_mono : Monotone daysBeforeYear := monotone_nat_of_le_succ fun _ => Nat.le_add_right _ _

/-- Where a day stands in its month. -/
theorem Date.number_bounds (d : Date) :
    daysBeforeYear d.year + daysThroughMonth d.year (d.month - 1) ≤ d.number ∧
      d.number < daysBeforeYear d.year + daysThroughMonth d.year d.month := by
  have hpos := d.day_pos
  have hle := d.day_le
  have hlast := daysThroughMonth_pred d.year d.month_pos
  rw [Date.number]
  omega

/-- Where a day stands in its year. -/
theorem Date.number_year (d : Date) :
    daysBeforeYear d.year ≤ d.number ∧ d.number < daysBeforeYear (d.year + 1) := by
  obtain ⟨hlow, hhigh⟩ := d.number_bounds
  have hmonths := daysThroughMonth_mono d.year d.month_le
  rw [daysThroughMonth_twelve] at hmonths
  rw [daysBeforeYear]
  omega

/-- A number is that of one day only. -/
theorem number_injective : Function.Injective Date.number := by
  intro d d' h
  have hyear : d.year = d'.year := by
    obtain ⟨hlow, hhigh⟩ := d.number_year
    obtain ⟨hlow', hhigh'⟩ := d'.number_year
    rcases Nat.lt_trichotomy d.year d'.year with hlt | heq | hgt
    · have := daysBeforeYear_mono (show d.year + 1 ≤ d'.year from hlt)
      omega
    · exact heq
    · have := daysBeforeYear_mono (show d'.year + 1 ≤ d.year from hgt)
      omega
  have hmonth : d.month = d'.month := by
    obtain ⟨hlow, hhigh⟩ := d.number_bounds
    obtain ⟨hlow', hhigh'⟩ := d'.number_bounds
    rw [← hyear] at hlow' hhigh'
    rcases Nat.lt_trichotomy d.month d'.month with hlt | heq | hgt
    · have := daysThroughMonth_mono d.year (Nat.le_sub_one_of_lt hlt)
      omega
    · exact heq
    · have := daysThroughMonth_mono d.year (Nat.le_sub_one_of_lt hgt)
      omega
  have hday : d.day = d'.day := by
    have hpos := d.day_pos
    have hpos' := d'.day_pos
    rw [Date.number, Date.number, hyear, hmonth] at h
    omega
  exact Date.ext hyear hmonth hday

/-- The day that is `n` days behind another. -/
theorem number_iterate (d : Date) (n : ℕ) : (Date.next^[n] d).number = d.number + n := by
  induction n with
  | zero => rfl
  | succ n ih =>
      rw [Function.iterate_succ_apply', number_next, ih, Nat.add_assoc]

theorem eq_iterate {d d' : Date} {n : ℕ} (h : d'.number = d.number + n) : d' = Date.next^[n] d :=
  number_injective (h.trans (number_iterate d n).symm)

/-! ### Years that begin in March -/

/-- The days from 1 March of year 0 to 1 March of year `y`. -/
def marchDays (y : ℕ) : ℕ := 365 * y + y / 4 - y / 100 + y / 400

theorem succ_div_eq (y k : ℕ) : (y + 1) / k = y / k + if (y + 1) % k = 0 then 1 else 0 := by
  rw [Nat.succ_div]
  simp only [Nat.dvd_iff_mod_eq_zero]

theorem marchDays_succ (y : ℕ) : marchDays (y + 1) = marchDays y + yearDays (y + 1) := by
  have hcentury : (y + 1) % 100 = 0 → (y + 1) % 4 = 0 := by omega
  have hfour : (y + 1) % 400 = 0 → (y + 1) % 100 = 0 := by omega
  have hle : y / 100 ≤ y / 4 := by omega
  rw [marchDays, marchDays, succ_div_eq, succ_div_eq, succ_div_eq]
  simp only [yearDays, Leap]
  generalize y / 100 = centuries at *
  generalize y / 4 = fours at *
  generalize y / 400 = cycles at *
  by_cases h4 : (y + 1) % 4 = 0
  · by_cases h100 : (y + 1) % 100 = 0
    · by_cases h400 : (y + 1) % 400 = 0
      · simp only [h4, h100, h400, ne_eq, not_true_eq_false, or_true, and_self, if_true]
        omega
      · simp only [h4, h100, h400, ne_eq, not_true_eq_false, or_self, and_false, if_true, if_false]
        omega
    · have h400 : ¬(y + 1) % 400 = 0 := fun h => h100 (hfour h)
      simp only [h4, h100, h400, ne_eq, not_false_eq_true, or_false, and_self, if_true, if_false]
      omega
  · have h100 : ¬(y + 1) % 100 = 0 := fun h => h4 (hcentury h)
    have h400 : ¬(y + 1) % 400 = 0 := fun h => h100 (hfour h)
    simp only [h4, h100, h400, false_and, if_false]
    omega

theorem daysBeforeYear_succ (y : ℕ) : daysBeforeYear (y + 1) = 366 + marchDays y := by
  induction y with
  | zero => decide
  | succ y ih => rw [daysBeforeYear, ih, marchDays_succ, Nat.add_assoc]

/-- The year that begins in March, found without a search but for one step back. -/
theorem marchDays_approx {days y : ℕ} (hy : y = (days + 2) * 400 / 146097) :
    days < marchDays (y + 1) ∧ (marchDays y ≤ days ∨ 0 < y ∧ marchDays (y - 1) ≤ days) := by
  rw [marchDays, marchDays, marchDays]
  omega

/-- The days before a month, counted in a year that begins in March. -/
def marchMonth (m : ℕ) : ℕ := 367 * m / 12 - 30

/-- The number of a day from March on, by the year that begins in March. -/
theorem Date.number_march (d : Date) (h : 2 < d.month) :
    d.number = 60 + marchDays d.year + marchMonth (d.month - 2) + (d.day - 1) := by
  have hle := d.month_le
  have hyear := daysBeforeYear_succ d.year
  rw [daysBeforeYear] at hyear
  rw [Date.number]
  obtain ⟨hleap, hdays⟩ | ⟨hleap, hdays⟩ : (Leap d.year ∧ yearDays d.year = 366) ∨ (¬Leap d.year ∧ yearDays d.year = 365) := by
    rw [yearDays]
    split_ifs with hleap
    · exact .inl ⟨hleap, rfl⟩
    · exact .inr ⟨hleap, rfl⟩
  all_goals
    generalize d.month = m at h hle ⊢
    interval_cases m <;> simp [daysThroughMonth, monthDays, marchMonth, hleap] <;> omega

/-- The number of a day in January or February, which belongs to the year before. -/
theorem Date.number_january (d : Date) {y : ℕ} (hy : d.year = y + 1) (h : d.month ≤ 2) :
    d.number = 60 + marchDays y + marchMonth (d.month + 10) + (d.day - 1) := by
  have hpos := d.month_pos
  have hyear := daysBeforeYear_succ y
  rw [Date.number, hy, hyear]
  generalize d.month = m at h hpos ⊢
  interval_cases m <;> simp [daysThroughMonth, monthDays, marchMonth] <;> omega

/-! ### Weekdays -/

inductive Weekday where
  | sunday | monday | tuesday | wednesday | thursday | friday | saturday
  deriving DecidableEq, Repr

def Weekday.next : Weekday → Weekday
  | .sunday => .monday
  | .monday => .tuesday
  | .tuesday => .wednesday
  | .wednesday => .thursday
  | .thursday => .friday
  | .friday => .saturday
  | .saturday => .sunday

/-- The days behind Sunday. -/
def Weekday.number : Weekday → ℕ
  | .sunday => 0
  | .monday => 1
  | .tuesday => 2
  | .wednesday => 3
  | .thursday => 4
  | .friday => 5
  | .saturday => 6

theorem Weekday.number_lt (w : Weekday) : w.number < 7 := by
  cases w <;> decide

theorem Weekday.number_next (w : Weekday) : w.next.number = (w.number + 1) % 7 := by
  cases w <;> rfl

theorem Weekday.number_iterate (w : Weekday) (n : ℕ) : (Weekday.next^[n] w).number = (w.number + n) % 7 := by
  induction n with
  | zero => cases w <;> rfl
  | succ n ih =>
      rw [Function.iterate_succ_apply', number_next, ih, Nat.mod_add_mod, Nat.add_assoc]

end NginxDtls.Calendar
