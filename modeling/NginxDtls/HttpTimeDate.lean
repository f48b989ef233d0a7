import NginxDtls.Calendar
import NginxDtls.HttpTime

/-! The fields that `ngx_gmtime` fills are the date, the weekday and the time of day in the Gregorian calendar. -/

namespace NginxDtls.HttpTime

open Calendar

/-! ### Words that are small numbers -/

theorem ofNat_eq_zero {x : ℕ} (h : x < 2 ^ 64) : UInt64.ofNat x = 0 ↔ x = 0 := by
  rw [UInt64.ofNat_eq_iff_mod_eq_toNat, Nat.mod_eq_of_lt h]
  rfl

/-- A difference is not cut as a number with a sign. -/
theorem toInt_toInt64_sub {x y : ℕ} (hx : x < 2 ^ 62) (hy : y < 2 ^ 62) :
    (UInt64.ofNat x - UInt64.ofNat y).toInt64.toInt = (x : ℤ) - y := by
  rw [UInt64.toInt64_sub, UInt64.toInt64_ofNat', UInt64.toInt64_ofNat', Int64.toInt_sub,
    Int64.toInt_ofNat_of_lt (by omega), Int64.toInt_ofNat_of_lt (by omega)]
  exact Int.bmod_eq_of_le (by omega) (by omega)

theorem toInt_toInt_ofNat {x : ℕ} (h : x < 2 ^ 31) : (toInt (UInt64.ofNat x)).toInt = x := by
  rw [toInt, UInt64.toUInt32_ofNat', UInt32.toInt32_ofNat', Int32.toInt_ofNat_of_lt h]

/-! ### The steps of `ngx_gmtime` -/

/-- A time between the epoch and the end of the year 9999: the one that is broken down. -/
def clamp (t : Int64) : ℕ := min t.toInt.toNat 253402300799

theorem splitTime_eq (t : Int64) :
    splitTime t = (UInt64.ofNat (clamp t / 86400), UInt64.ofNat (clamp t % 86400)) := by
  have hmax := t.toInt_lt
  have hnonneg : (if t < 0 then 0 else t) = Int64.ofNat t.toInt.toNat := by
    rw [← Int64.toInt_inj, Int64.toInt_ofNat_of_lt (by omega)]
    split
    · rename_i hneg
      rw [Int64.lt_iff_toInt_lt, Int64.toInt_zero] at hneg
      rw [Int64.toInt_zero]
      omega
    · rename_i hpos
      rw [Int64.lt_iff_toInt_lt, Int64.toInt_zero] at hpos
      omega
  rw [splitTime, hnonneg, clamp]
  generalize ht : t.toInt.toNat = n
  have hn : n < 2 ^ 63 := by omega
  have hdays : (Int64.ofNat n / 86400).toUInt64 = UInt64.ofNat (n / 86400) := by
    rw [← Int64.toUInt64_ofNat', Int64.ofNat_div hn (by decide)]
    rfl
  have hsec : (Int64.ofNat n % 86400).toUInt64 = UInt64.ofNat (n % 86400) := by
    rw [← Int64.toUInt64_ofNat', Int64.ofNat_mod hn (by decide)]
    rfl
  have hclamp : UInt64.ofNat (n / 86400) > 2932896 ↔ 2932896 < n / 86400 := by
    change UInt64.ofNat 2932896 < UInt64.ofNat (n / 86400) ↔ _
    exact UInt64.ofNat_lt_iff_lt (by decide) (lt_of_le_of_lt (Nat.div_le_self n 86400) (by rw [UInt64.size]; omega))
  simp only [hdays, hsec, hclamp]
  split
  · rw [Nat.min_eq_right (by omega)]
    rfl
  · rw [Nat.min_eq_left (by omega)]

theorem gaussYears_eq {y : ℕ} (h : y < 2 ^ 32) : gaussYears (UInt64.ofNat y) = UInt64.ofNat (marchDays y) := by
  rw [marchDays, UInt64.ofNat_add, UInt64.ofNat_sub (by omega), UInt64.ofNat_add, UInt64.ofNat_mul,
    UInt64.ofNat_div (by omega) (by decide), UInt64.ofNat_div (by omega) (by decide),
    UInt64.ofNat_div (by omega) (by decide)]
  rfl

theorem ofNat_mod_eq_zero {y k : ℕ} (hy : y < 2 ^ 64) (hk : k < 2 ^ 64) :
    UInt64.ofNat y % UInt64.ofNat k = 0 ↔ y % k = 0 := by
  rw [← UInt64.ofNat_mod hy hk, ofNat_eq_zero (lt_of_le_of_lt (Nat.mod_le y k) hy)]

theorem leap_iff {y : ℕ} (h : y < 2 ^ 64) : (UInt64.ofNat y % 4 = 0 ∧
    (UInt64.ofNat y % 100 ≠ 0 ∨ UInt64.ofNat y % 400 = 0)) ↔ Leap y := by
  change (UInt64.ofNat y % UInt64.ofNat 4 = 0 ∧
    (¬UInt64.ofNat y % UInt64.ofNat 100 = 0 ∨ UInt64.ofNat y % UInt64.ofNat 400 = 0)) ↔ _
  rw [ofNat_mod_eq_zero h (by decide), ofNat_mod_eq_zero h (by decide), ofNat_mod_eq_zero h (by decide), Leap]

/-- The year that begins in March, and the days behind its beginning. -/
theorem yearDay_eq {days : ℕ} (h : days < 3652365) : ∃ y yday : ℕ,
    yearDay (UInt64.ofNat days) = (UInt64.ofNat y, Int64.ofNat yday) ∧ marchDays y + yday = days ∧
      yday < yearDays (y + 1) := by
  obtain ⟨y, hy⟩ : ∃ y, y = (days + 2) * 400 / 146097 := ⟨_, rfl⟩
  obtain ⟨hnext, happrox⟩ := marchDays_approx hy
  have hsmall : y < 10000 := by omega
  have hlarge : marchDays y < 2 ^ 62 := by rw [marchDays]; omega
  have hyear : (UInt64.ofNat days + 2) * 400 / (365 * 400 + 100 - 4 + 1) = UInt64.ofNat y := by
    rw [hy, UInt64.ofNat_div (by omega) (by decide), UInt64.ofNat_mul, UInt64.ofNat_add]
    rfl
  have hyday := toInt_toInt64_sub (x := days) (by omega) hlarge
  have hneg : (UInt64.ofNat days - UInt64.ofNat (marchDays y)).toInt64 < 0 ↔ days < marchDays y := by
    rw [Int64.lt_iff_toInt_lt, hyday, Int64.toInt_zero]
    omega
  simp only [yearDay, hyear, gaussYears_eq (show y < 2 ^ 32 by omega), hneg, leap_iff (show y < 2 ^ 64 by omega)]
  by_cases hlt : days < marchDays y
  · -- the last days of February were counted as days of the next year
    obtain hle | ⟨hpos, hle⟩ := happrox
    · exact absurd hlt (Nat.not_lt.mpr hle)
    obtain ⟨z, rfl⟩ : ∃ z, y = z + 1 := ⟨y - 1, by omega⟩
    rw [Nat.add_sub_cancel] at hle
    have hsucc := marchDays_succ z
    have hlen : 365 + (if Leap (z + 1) then 1 else 0 : UInt64) = UInt64.ofNat (yearDays (z + 1)) := by
      rw [yearDays]
      split <;> rfl
    refine ⟨z, days - marchDays z, ?_, by omega, by omega⟩
    rw [if_pos hlt, hlen, UInt64.toUInt64_toInt64, ← add_sub_assoc, ← UInt64.ofNat_add, ← UInt64.ofNat_sub (by omega),
      UInt64.toInt64_ofNat', UInt64.ofNat_add, show yearDays (z + 1) + days - marchDays (z + 1) = days - marchDays z by omega]
    rw [show (UInt64.ofNat z + UInt64.ofNat 1 - 1) = UInt64.ofNat z from add_sub_cancel_right _ _]
  · rw [Nat.not_lt] at hlt
    rw [marchDays_succ] at hnext
    refine ⟨y, days - marchDays y, ?_, by omega, by omega⟩
    rw [if_neg (Nat.not_lt.mpr hlt), ← UInt64.ofNat_sub hlt, UInt64.toInt64_ofNat']

theorem monthDay_eq {yday : ℕ} (h : yday < 366) :
    monthDay (Int64.ofNat yday) = (UInt64.ofNat ((yday + 31) * 10 / 306),
      UInt64.ofNat (yday - marchMonth ((yday + 31) * 10 / 306) + 1)) := by
  have hall : ∀ yday : Fin 366, monthDay (Int64.ofNat yday) = (UInt64.ofNat ((yday + 31) * 10 / 306),
      UInt64.ofNat (yday - marchMonth ((yday + 31) * 10 / 306) + 1)) := by
    decide +kernel
  exact hall ⟨yday, h⟩

/-! ### The date -/

/-- The day on which time begins. -/
def epoch : Date := ⟨1970, 1, 1, by decide, by decide, by decide, by decide⟩

theorem number_epoch : epoch.number = 719528 := by decide +kernel

/-- The day of a time: one waits for tomorrow from the epoch on. -/
def dayOf (n : ℕ) : Date := Date.next^[n / 86400] epoch

/-- Its weekday, since the epoch was a Thursday. -/
def weekdayOf (n : ℕ) : Weekday := Weekday.next^[n / 86400] .thursday

/-- The month by the empirical formula: it has begun, and it lasts to the next one. -/
theorem month_bounds {yday mon : ℕ} (h : yday < 366) (hmon : mon = (yday + 31) * 10 / 306) :
    0 < mon ∧ mon ≤ 12 ∧ marchMonth mon ≤ yday ∧ yday < marchMonth (mon + 1) ∧ (306 ≤ yday ↔ 10 < mon) := by
  rw [marchMonth, marchMonth]
  omega

/-- The lengths of the months from March to December, and of January. -/
theorem marchMonth_succ (y : ℕ) {mon : ℕ} (hpos : 0 < mon) (hle : mon ≤ 10) :
    marchMonth (mon + 1) = marchMonth mon + monthDays y (mon + 2) := by
  interval_cases mon <;> rfl

/-- The day that the formulas find. -/
theorem exists_date {y yday mon : ℕ} (h : yday < yearDays (y + 1)) (hmon : mon = (yday + 31) * 10 / 306) :
    ∃ d : Date, d.number = 60 + marchDays y + yday ∧ d.day = yday - marchMonth mon + 1 ∧
      (d.year, d.month) = if 306 ≤ yday then (y + 1, mon - 10) else (y, mon + 2) := by
  have hlast : yday < 366 := lt_of_lt_of_le h (by rw [yearDays]; split <;> decide)
  obtain ⟨hpos, hle, hbegun, hnext, hlate⟩ := month_bounds hlast hmon
  by_cases hyear : 306 ≤ yday
  · rw [if_pos hyear]
    rw [hlate] at hyear
    have hday : yday - marchMonth mon + 1 ≤ monthDays (y + 1) (mon - 10) := by
      obtain rfl | rfl : mon = 11 ∨ mon = 12 := by omega
      · change yday - 306 + 1 ≤ 31
        change yday < 337 at hnext
        omega
      · change yday - 337 + 1 ≤ if Leap (y + 1) then 29 else 28
        rw [yearDays] at h
        split_ifs at h ⊢ <;> omega
    refine ⟨⟨y + 1, mon - 10, yday - marchMonth mon + 1, by omega, by omega, by omega, hday⟩, ?_, rfl, rfl⟩
    rw [Date.number_january _ rfl (by change mon - 10 ≤ 2; omega)]
    change 60 + marchDays y + marchMonth (mon - 10 + 10) + (yday - marchMonth mon + 1 - 1) = _
    rw [Nat.sub_add_cancel (by omega)]
    omega
  · rw [if_neg hyear]
    rw [hlate] at hyear
    have hday : yday - marchMonth mon + 1 ≤ monthDays y (mon + 2) := by
      rw [marchMonth_succ y hpos (by omega)] at hnext
      omega
    refine ⟨⟨y, mon + 2, yday - marchMonth mon + 1, by omega, by omega, by omega, hday⟩, ?_, rfl, rfl⟩
    rw [Date.number_march _ (by change 2 < mon + 2; omega)]
    change 60 + marchDays y + marchMonth (mon + 2 - 2) + (yday - marchMonth mon + 1 - 1) = _
    rw [Nat.add_sub_cancel]
    omega

theorem calendarYear_eq {y yday mon : ℕ} (h : yday < 366) (hmon : mon = (yday + 31) * 10 / 306) :
    calendarYear (Int64.ofNat yday) (UInt64.ofNat y) (UInt64.ofNat mon) =
      if 306 ≤ yday then (UInt64.ofNat (y + 1), UInt64.ofNat (mon - 10)) else (UInt64.ofNat y, UInt64.ofNat (mon + 2)) := by
  obtain ⟨hpos, hle, hbegun, hnext, hlate⟩ := month_bounds h hmon
  have hcase : Int64.ofNat yday ≥ 306 ↔ 306 ≤ yday := Int64.ofNat_le_iff_le (by decide) (by omega)
  simp only [calendarYear, hcase]
  split
  · rw [UInt64.ofNat_add, UInt64.ofNat_sub (by omega)]
    rfl
  · rw [UInt64.ofNat_add]
    rfl

theorem timeOfDay (n : ℕ) :
    UInt64.ofNat (n % 86400) / 3600 = UInt64.ofNat (n / 3600 % 24) ∧
      UInt64.ofNat (n % 86400) % 3600 / 60 = UInt64.ofNat (n / 60 % 60) ∧
      UInt64.ofNat (n % 86400) % 3600 % 60 = UInt64.ofNat (n % 60) := by
  obtain ⟨sec, hsec⟩ : ∃ sec, sec = n % 86400 := ⟨_, rfl⟩
  have hhour : n / 3600 % 24 = sec / 3600 := by omega
  have hmin : n / 60 % 60 = sec % 3600 / 60 := by omega
  have hlast : n % 60 = sec % 3600 % 60 := by omega
  have hmod : UInt64.ofNat sec % 3600 = UInt64.ofNat (sec % 3600) :=
    (UInt64.ofNat_mod (by omega) (by decide)).symm
  rw [hhour, hmin, hlast, ← hsec, hmod]
  exact ⟨(UInt64.ofNat_div (by omega) (by decide)).symm, (UInt64.ofNat_div (by omega) (by decide)).symm,
    (UInt64.ofNat_mod (by omega) (by decide)).symm⟩

/-- The fields of a time as small words. -/
theorem ngxGmtime_words (t : Int64) : ngxGmtime t =
    ⟨toInt (UInt64.ofNat (clamp t % 60)), toInt (UInt64.ofNat (clamp t / 60 % 60)),
      toInt (UInt64.ofNat (clamp t / 3600 % 24)), toInt (UInt64.ofNat (dayOf (clamp t)).day),
      toInt (UInt64.ofNat (dayOf (clamp t)).month), toInt (UInt64.ofNat (dayOf (clamp t)).year),
      toInt (UInt64.ofNat (weekdayOf (clamp t)).number)⟩ := by
  have hclamp : clamp t ≤ 253402300799 := Nat.min_le_right _ _
  generalize hn : clamp t = n at hclamp
  have hshift : UInt64.ofNat (n / 86400) - (31 + 28) + 719527 = UInt64.ofNat (n / 86400 + 719468) := by
    rw [UInt64.ofNat_add, sub_add_eq_add_sub, add_sub_assoc]
    rfl
  obtain ⟨y, yday, hyear, hdays, hyday⟩ := yearDay_eq (show n / 86400 + 719468 < 3652365 by omega)
  have hlast : yday < 366 := lt_of_lt_of_le hyday (by rw [yearDays]; split <;> decide)
  obtain ⟨d, hnumber, hday, hmonth⟩ := exists_date hyday rfl
  have hd : d = dayOf n := eq_iterate (by rw [hnumber, number_epoch]; omega)
  have hcalendar : calendarYear (Int64.ofNat yday) (UInt64.ofNat y) (UInt64.ofNat ((yday + 31) * 10 / 306)) =
      (UInt64.ofNat d.year, UInt64.ofNat d.month) := by
    rw [calendarYear_eq hlast rfl]
    split_ifs at hmonth ⊢ <;> obtain ⟨hy, hm⟩ := Prod.mk.inj hmonth <;> rw [hy, hm]
  have hwday : (4 + UInt64.ofNat (n / 86400)) % 7 = UInt64.ofNat (weekdayOf n).number := by
    rw [weekdayOf, Weekday.number_iterate, UInt64.ofNat_mod (by change 4 + n / 86400 < 2 ^ 64; omega) (by decide),
      UInt64.ofNat_add]
    rfl
  obtain ⟨hhour, hmin, hsec⟩ := timeOfDay n
  rw [ngxGmtime, splitTime_eq, hn]
  simp only [hshift, hyear, monthDay_eq hlast, hcalendar, hwday, hhour, hmin, hsec, ← hday, hd]

/-- The years that can be written with four digits. -/
theorem year_bounds {n : ℕ} (h : n ≤ 253402300799) : 1970 ≤ (dayOf n).year ∧ (dayOf n).year < 10000 := by
  obtain ⟨hlow, hhigh⟩ := (dayOf n).number_year
  have hnumber : (dayOf n).number = 719528 + n / 86400 := by rw [dayOf, number_iterate, number_epoch]
  constructor
  · by_contra hlt
    have hmono := daysBeforeYear_mono (show (dayOf n).year + 1 ≤ 1970 by omega)
    have hepoch : daysBeforeYear 1970 = 719528 := by rw [daysBeforeYear_succ]; rfl
    omega
  · by_contra hge
    have hmono := daysBeforeYear_mono (Nat.le_of_not_lt hge)
    have hend : daysBeforeYear 10000 = 3652425 := by rw [daysBeforeYear_succ]; rfl
    omega

/-- What `ngx_gmtime` fills in. -/
theorem ngxGmtime_eq (t : Int64) :
    (ngxGmtime t).year.toInt = (dayOf (clamp t)).year ∧ (ngxGmtime t).mon.toInt = (dayOf (clamp t)).month ∧
      (ngxGmtime t).mday.toInt = (dayOf (clamp t)).day ∧ (ngxGmtime t).wday.toInt = (weekdayOf (clamp t)).number ∧
      (ngxGmtime t).hour.toInt = (clamp t / 3600 % 24 : ℕ) ∧ (ngxGmtime t).min.toInt = (clamp t / 60 % 60 : ℕ) ∧
      (ngxGmtime t).sec.toInt = (clamp t % 60 : ℕ) := by
  have hyear := year_bounds (show clamp t ≤ 253402300799 from Nat.min_le_right _ _)
  have hmonth := (dayOf (clamp t)).month_le
  have hday := (dayOf (clamp t)).day_le.trans (monthDays_le _ _)
  have hwday := (weekdayOf (clamp t)).number_lt
  rw [ngxGmtime_words]
  refine ⟨toInt_toInt_ofNat (by omega), toInt_toInt_ofNat (by omega), toInt_toInt_ofNat (by omega),
    toInt_toInt_ofNat (by omega), toInt_toInt_ofNat (by omega), toInt_toInt_ofNat (by omega),
    toInt_toInt_ofNat (by omega)⟩

end NginxDtls.HttpTime
