import NginxDtls.HttpTimeDate

/-! The text of a time, and its reading by `ngx_parse_http_time`. -/

namespace NginxDtls.HttpTime

open Calendar Checked Sprintf
open ParseTime (errorIf)

/-! ### Digits -/

/-- The last digit of a number. -/
def digitChar (k : ℕ) : UInt8 := UInt8.ofNat (k % 10 + 48)

def two (k : ℕ) : List UInt8 := [digitChar (k / 10), digitChar k]

def four (k : ℕ) : List UInt8 := [digitChar (k / 1000), digitChar (k / 100), digitChar (k / 10), digitChar k]

theorem digitChar_toNat (k : ℕ) : (digitChar k).toNat = k % 10 + 48 := by
  rw [digitChar, UInt8.toNat_ofNat']
  omega

theorem decimalLoop_last {k : ℕ} (h : k < 10) (p : List UInt8) : decimalLoop k p = digitChar k :: p := by
  rw [decimalLoop]
  exact if_pos (Nat.div_eq_of_lt h)

theorem decimalLoop_more {k : ℕ} (h : 10 ≤ k) (p : List UInt8) : decimalLoop k p = decimalLoop (k / 10) (digitChar k :: p) := by
  rw [decimalLoop]
  exact if_neg (by omega)

theorem ngxSprintfNum_two {k : ℕ} (h : k < 100) (out : List UInt8) :
    ngxSprintfNum none out k 48 0 2 = (out ++ two k, true) := by
  rw [ngxSprintfNum, if_pos rfl]
  by_cases hk : k < 10
  · rw [decimalLoop_last hk]
    have hzero : digitChar (k / 10) = 48 := by rw [digitChar, Nat.div_eq_of_lt hk]; rfl
    simp [padLoop, below, copyNum, ngxCpymem, two, hzero]
  · rw [decimalLoop_more (by omega), decimalLoop_last (by omega)]
    simp [padLoop, copyNum, ngxCpymem, two]

theorem ngxSprintfNum_four {k : ℕ} (hlow : 1000 ≤ k) (hhigh : k < 10000) (out : List UInt8) :
    ngxSprintfNum none out k 32 0 4 = (out ++ four k, true) := by
  rw [ngxSprintfNum, if_pos rfl, decimalLoop_more (by omega), decimalLoop_more (by omega), decimalLoop_more (by omega),
    decimalLoop_last (by omega), Nat.div_div_eq_div_mul, Nat.div_div_eq_div_mul]
  simp [padLoop, copyNum, ngxCpymem, four, Nat.div_div_eq_div_mul]

/-! ### Conversions -/

theorem value32_ofNat {k : ℕ} (h : k < 2 ^ 31) : value32 true (UInt64.ofNat k) = k := by
  have hbits : ((UInt64.ofNat k).toBitVec.setWidth 32).toNat = k := by
    rw [BitVec.toNat_setWidth, UInt64.toNat_toBitVec, UInt64.toNat_ofNat']
    omega
  change ((UInt64.ofNat k).toBitVec.setWidth 32).toInt = k
  rw [BitVec.toInt_eq_toNat_of_lt (by rw [hbits]; omega), hbits]

theorem intArg_ofNat {k : ℕ} (h : k < 2 ^ 31) : intArg (toInt (UInt64.ofNat k)) = .word (UInt64.ofNat k) := by
  have hint : (toInt (UInt64.ofNat k)).toInt64 = Int64.ofNat k := by
    rw [← Int64.toInt_inj, Int32.toInt_toInt64, toInt_toInt_ofNat h, Int64.toInt_ofNat_of_lt (by omega)]
  rw [intArg, hint, Int64.toUInt64_ofNat']

/-- The flags of `%d`, with a width. -/
def decimalSpec (zero : UInt8) (width : ℕ) : Spec := ⟨zero, width, true, 0, false, 0, 100⟩

theorem convert_decimal {k width : ℕ} (h : k < 2 ^ 31) (zero : UInt8) (args : List Arg) {out text : List UInt8}
    (hnum : ngxSprintfNum none out k zero 0 width = (text, true)) :
    convert none (decimalSpec zero width) out (intArg (toInt (UInt64.ofNat k)) :: args) = (text, some args) := by
  have hwrite : (Task.num (value32 true (UInt64.ofNat k)) (decimalSpec zero width)).write none out = (text, true) := by
    rw [value32_ofNat h, Task.write, if_neg (by omega), Int.natAbs_natCast]
    exact hnum
  rw [intArg_ofNat h]
  change (((Task.num (value32 true (UInt64.ofNat k)) (decimalSpec zero width)).write none out).1,
    if ((Task.num (value32 true (UInt64.ofNat k)) (decimalSpec zero width)).write none out).2 = true then some args
      else none) = _
  rw [hwrite]
  rfl

theorem loop_two {k : ℕ} (h : k < 100) (rest : List UInt8) (args : List Arg) (out : List UInt8) :
    vslprintfLoop none (37 :: 48 :: 50 :: 100 :: rest) (intArg (toInt (UInt64.ofNat k)) :: args) out =
      vslprintfLoop none rest args (out ++ two k) := by
  have hspec : parseSpec (48 :: 50 :: 100 :: rest) = some (decimalSpec 48 2, rest) := rfl
  rw [vslprintfLoop_percent rfl, hspec]
  simp only [convert_decimal (show k < 2 ^ 31 by omega) 48 args (ngxSprintfNum_two h out)]

theorem loop_four {k : ℕ} (hlow : 1000 ≤ k) (hhigh : k < 10000) (rest : List UInt8) (args : List Arg) (out : List UInt8) :
    vslprintfLoop none (37 :: 52 :: 100 :: rest) (intArg (toInt (UInt64.ofNat k)) :: args) out =
      vslprintfLoop none rest args (out ++ four k) := by
  have hspec : parseSpec (52 :: 100 :: rest) = some (decimalSpec 32 4, rest) := rfl
  rw [vslprintfLoop_percent rfl, hspec]
  simp only [convert_decimal (show k < 2 ^ 31 by omega) 32 args (ngxSprintfNum_four hlow hhigh out)]

theorem copyString_all {s : List UInt8} (h : 0 ∉ s) (out : List UInt8) :
    copyString none (s ++ [0]) out = (out ++ s, true) := by
  induction s generalizing out with
  | nil => simp [copyString]
  | cons c s ih =>
      rw [List.mem_cons, not_or] at h
      rw [List.cons_append, copyString, if_pos ⟨fun hc => h.1 hc.symm, rfl⟩, ih h.2, List.append_assoc]
      rfl

theorem loop_string {s : List UInt8} (h : 0 ∉ s) (rest : List UInt8) (args : List Arg) (out : List UInt8) :
    vslprintfLoop none (37 :: 115 :: rest) (.ptr (s ++ [0]) :: args) out = vslprintfLoop none rest args (out ++ s) := by
  have hspec : parseSpec (115 :: rest) = some (⟨32, 0, true, 0, false, 0, 115⟩, rest) := rfl
  have hconvert : convert none ⟨32, 0, true, 0, false, 0, 115⟩ out (.ptr (s ++ [0]) :: args) = (out ++ s, some args) := by
    change ((copyString none (s ++ [0]) out).1, if (copyString none (s ++ [0]) out).2 = true then some args else none) = _
    rw [copyString_all h]
    rfl
  rw [vslprintfLoop_percent rfl, hspec]
  simp only [hconvert]

theorem loop_plain (s : List UInt8) (h : ∀ c ∈ s, c ≠ 0 ∧ c ≠ 37) (rest : List UInt8) (args : List Arg) (out : List UInt8) :
    vslprintfLoop none (s ++ rest) args out = vslprintfLoop none rest args (out ++ s) := by
  induction s generalizing out with
  | nil => rw [List.nil_append, List.append_nil]
  | cons c s ih =>
      obtain ⟨hzero, hpercent⟩ := h c List.mem_cons_self
      rw [List.cons_append, vslprintfLoop_plain hzero hpercent rfl, ih fun c' hc' => h c' (List.mem_cons_of_mem c hc'),
        List.append_assoc]
      rfl

/-! ### The text -/

def clockText (hour min sec : ℕ) : List UInt8 :=
  two hour ++ ([58] ++ (two min ++ ([58] ++ (two sec ++ [32, 71, 77, 84]))))

/-- The text of a weekday, a date and a time of day. -/
def dateText (w : Weekday) (d : Date) (hour min sec : ℕ) : List UInt8 :=
  week.getD w.number [] ++ ([44, 32] ++ (two d.day ++ ([32] ++ (months.getD (d.month - 1) [] ++ ([32] ++ (four d.year ++
    ([32] ++ clockText hour min sec)))))))

theorem entry_eq (table : List (List UInt8)) {i : ℕ} (hi : i < table.length) (hsmall : i < 2 ^ 31) :
    entry table (toInt (UInt64.ofNat i)) = pure (table.getD i [] ++ [0]) := by
  have hnonneg : ¬toInt (UInt64.ofNat i) < 0 := by
    rw [Int32.lt_iff_toInt_lt, toInt_toInt_ofNat hsmall]
    exact Int.not_lt.mpr (Int.natCast_nonneg i)
  rw [entry, if_neg hnonneg, toInt_toInt_ofNat hsmall, Int.toNat_natCast, List.getElem?_eq_getElem hi,
    List.getD_eq_getElem _ _ hi]

theorem month_before {m : ℕ} (hpos : 0 < m) (hle : m ≤ 12) : toInt (UInt64.ofNat m) - 1 = toInt (UInt64.ofNat (m - 1)) := by
  interval_cases m <;> rfl

theorem no_zero {table : List (List UInt8)} (htable : ∀ s ∈ table, 0 ∉ s) (i : ℕ) : 0 ∉ table.getD i [] := by
  by_cases hi : i < table.length
  · rw [List.getD_eq_getElem _ _ hi]
    exact htable _ (List.getElem_mem hi)
  · rw [List.getD_eq_default _ _ (Nat.le_of_not_lt hi)]
    exact List.not_mem_nil

/-- The format, cut at its conversions. -/
theorem httpFormat_eq : chars "%s, %02d %s %4d %02d:%02d:%02d GMT" ++ [0] =
    37 :: 115 :: ([44, 32] ++ (37 :: 48 :: 50 :: 100 :: ([32] ++ (37 :: 115 :: ([32] ++ (37 :: 52 :: 100 :: ([32] ++
      (37 :: 48 :: 50 :: 100 :: ([58] ++ (37 :: 48 :: 50 :: 100 :: ([58] ++ (37 :: 48 :: 50 :: 100 ::
        ([32, 71, 77, 84] ++ [0]))))))))))))) := by
  rfl

theorem ngxSprintf_date (w : Weekday) (d : Date) {hour min sec : ℕ} (hlow : 1000 ≤ d.year) (hhigh : d.year < 10000)
    (hhour : hour < 100) (hmin : min < 100) (hsec : sec < 100) :
    ngxSprintf (chars "%s, %02d %s %4d %02d:%02d:%02d GMT" ++ [0]) [.ptr (week.getD w.number [] ++ [0]),
      intArg (toInt (UInt64.ofNat d.day)), .ptr (months.getD (d.month - 1) [] ++ [0]), intArg (toInt (UInt64.ofNat d.year)),
      intArg (toInt (UInt64.ofNat hour)), intArg (toInt (UInt64.ofNat min)), intArg (toInt (UInt64.ofNat sec))] =
        pure (dateText w d hour min sec) := by
  have hday : d.day < 100 := lt_of_le_of_lt (d.day_le.trans (monthDays_le _ _)) (by decide)
  rw [ngxSprintf, httpFormat_eq, ngxVslprintf, loop_string (no_zero (by decide) _),
    loop_plain [44, 32] (by simp), loop_two hday, loop_plain [32] (by simp),
    loop_string (no_zero (by decide) _), loop_plain [32] (by simp), loop_four hlow hhigh,
    loop_plain [32] (by simp), loop_two hhour, loop_plain [58] (by simp), loop_two hmin,
    loop_plain [58] (by simp), loop_two hsec, loop_plain [32, 71, 77, 84] (by simp),
    vslprintfLoop_end (.inl rfl), if_pos rfl, dateText, clockText]
  simp only [List.nil_append, List.append_assoc]

theorem ngxHttpTime_eq (t : Int64) : ngxHttpTime t = pure (dateText (weekdayOf (clamp t)) (dayOf (clamp t))
    (clamp t / 3600 % 24) (clamp t / 60 % 60) (clamp t % 60)) := by
  obtain ⟨hlow, hhigh⟩ := year_bounds (show clamp t ≤ 253402300799 from Nat.min_le_right _ _)
  have hpos := (dayOf (clamp t)).month_pos
  have hmonth := (dayOf (clamp t)).month_le
  have hwday := (weekdayOf (clamp t)).number_lt
  rw [ngxHttpTime, ngxGmtime_words]
  simp only
  rw [entry_eq week hwday (by omega), month_before hpos hmonth,
    entry_eq months (lt_of_lt_of_le (Nat.sub_lt hpos Nat.one_pos) hmonth) (by omega), pure_bind, pure_bind]
  exact ngxSprintf_date _ _ (by omega) hhigh (by omega) (by omega) (by omega)

/-! ### The reading -/

theorem digit_digitChar (k : ℕ) : ¬notDigit (digitChar k) ∧ digit (digitChar k) = UInt64.ofNat (k % 10) := by
  have hall : ∀ r : Fin 10, ¬notDigit (UInt8.ofNat (r + 48)) ∧ digit (UInt8.ofNat (r + 48)) = UInt64.ofNat r := by
    decide
  exact hall ⟨k % 10, Nat.mod_lt _ (by decide)⟩

theorem digitAt_eq {p : List UInt8} {i k : ℕ} (h : p[i]? = some (digitChar k)) :
    digitAt p i = pure (UInt64.ofNat (k % 10)) := by
  obtain ⟨hdigit, hvalue⟩ := digit_digitChar k
  rw [digitAt, peekAt_eq h, pure_bind, errorIf, if_neg hdigit, pure_bind, hvalue]

theorem twoDigits_eq {k : ℕ} (h : k < 100) (p : List UInt8) : twoDigits (two k ++ p) = pure (UInt64.ofNat k, p) := by
  have hvalue : UInt64.ofNat (k / 10 % 10) * 10 + UInt64.ofNat (k % 10) = UInt64.ofNat k := by
    calc UInt64.ofNat (k / 10 % 10) * 10 + UInt64.ofNat (k % 10)
        = UInt64.ofNat (k / 10 % 10 * 10 + k % 10) := by rw [UInt64.ofNat_add, UInt64.ofNat_mul]; rfl
      _ = UInt64.ofNat k := congrArg UInt64.ofNat (by omega)
  rw [twoDigits, digitAt_eq (k := k / 10) rfl, pure_bind, digitAt_eq (k := k) rfl, pure_bind, hvalue]
  rfl

theorem fourDigits_eq {k : ℕ} (h : k < 10000) (p : List UInt8) : fourDigits (four k ++ p) = pure (UInt64.ofNat k, p) := by
  have hvalue : UInt64.ofNat (k / 1000 % 10) * 1000 + UInt64.ofNat (k / 100 % 10) * 100 + UInt64.ofNat (k / 10 % 10) * 10 +
      UInt64.ofNat (k % 10) = UInt64.ofNat k := by
    calc UInt64.ofNat (k / 1000 % 10) * 1000 + UInt64.ofNat (k / 100 % 10) * 100 + UInt64.ofNat (k / 10 % 10) * 10 +
          UInt64.ofNat (k % 10)
        = UInt64.ofNat (k / 1000 % 10 * 1000 + k / 100 % 10 * 100 + k / 10 % 10 * 10 + k % 10) := by
          rw [UInt64.ofNat_add, UInt64.ofNat_add, UInt64.ofNat_add, UInt64.ofNat_mul, UInt64.ofNat_mul, UInt64.ofNat_mul]
          rfl
      _ = UInt64.ofNat k := congrArg UInt64.ofNat (by omega)
  rw [fourDigits, digitAt_eq (k := k / 1000) rfl, pure_bind, digitAt_eq (k := k / 100) rfl, pure_bind,
    digitAt_eq (k := k / 10) rfl, pure_bind, digitAt_eq (k := k) rfl, pure_bind, hvalue]
  rfl

theorem errorIf_false {c : Prop} [Decidable c] (h : ¬c) : errorIf c = pure () := if_neg h

theorem expect_eq (c : UInt8) (p : List UInt8) : expect c ([c] ++ p) = pure p := by
  rw [expect, peekAt_eq (c := c) rfl, pure_bind, errorIf, if_neg (not_not.mpr rfl), pure_bind]
  rfl

theorem skipWeekday_eq (w : Weekday) (p : List UInt8) :
    skipWeekday (week.getD w.number [] ++ ([44, 32] ++ p)) = (.no, 32 :: p) := by
  have hweek : week = [[83, 117, 110], [77, 111, 110], [84, 117, 101], [87, 101, 100], [84, 104, 117], [70, 114, 105],
      [83, 97, 116]] := by
    rfl
  rw [hweek]
  cases w <;> rfl

theorem monthName_eq {m : ℕ} (h : m < 12) (p : List UInt8) : (months.getD m []).length = 3 ∧
    monthName (months.getD m [] ++ p) = pure (Int64.ofNat m) := by
  have hmonths : months = [[74, 97, 110], [70, 101, 98], [77, 97, 114], [65, 112, 114], [77, 97, 121], [74, 117, 110],
      [74, 117, 108], [65, 117, 103], [83, 101, 112], [79, 99, 116], [78, 111, 118], [68, 101, 99]] := by
    rfl
  rw [hmonths]
  interval_cases m <;> exact ⟨rfl, rfl⟩

theorem behindMonth_eq {name : List UInt8} (h : name.length = 3) (p : List UInt8) :
    behindMonth .rfc822 (name ++ ([32] ++ p)) = pure p := by
  rw [behindMonth, if_pos rfl, ← h, List.drop_left, expect_eq]

theorem dropWhile_two (k : ℕ) (p : List UInt8) : (32 :: (two k ++ p)).dropWhile (· = 32) = two k ++ p := by
  have hspace : digitChar (k / 10) ≠ 32 := by
    intro h
    have hvalue := digitChar_toNat (k / 10)
    rw [h] at hvalue
    exact absurd hvalue (by change 32 ≠ _; omega)
  rw [two, List.cons_append, List.dropWhile_cons_of_pos (by decide), List.dropWhile_cons_of_neg (by simpa using hspace)]

theorem dayBefore_eq {k : ℕ} (h : k < 100) {p : List UInt8} (hp : 17 ≤ p.length) :
    dayBefore .no (two k ++ ([32] ++ p)) = pure (.rfc822, UInt64.ofNat k, p) := by
  rw [dayBefore, if_pos (by decide), twoDigits_eq h, pure_bind]
  simp only
  rw [peekAt_eq (c := 32) rfl, pure_bind, if_pos rfl, errorIf, if_neg, pure_bind]
  · rfl
  · change ¬p.length + 1 < 18
    omega

theorem ofNat_eq_iff {x k : ℕ} (hx : x < 2 ^ 64) (hk : k < 2 ^ 64) : UInt64.ofNat x = UInt64.ofNat k ↔ x = k := by
  rw [UInt64.ofNat_eq_iff_mod_eq_toNat, UInt64.toNat_ofNat', Nat.mod_eq_of_lt hx, Nat.mod_eq_of_lt hk]

theorem and_three {y : ℕ} (h : y < 2 ^ 64) : UInt64.ofNat y &&& 3 ≠ 0 ↔ y % 4 ≠ 0 := by
  have hmod : UInt64.ofNat y &&& 3 = UInt64.ofNat (y % 4) := by
    rw [← UInt64.toNat_inj, UInt64.toNat_and, UInt64.toNat_ofNat', UInt64.toNat_ofNat', Nat.mod_eq_of_lt h,
      Nat.mod_eq_of_lt (by omega)]
    exact Nat.and_two_pow_sub_one_eq_mod y 2
  rw [hmod, ne_eq, ofNat_eq_zero (by omega)]

/-- The days of a month outside of leap years. -/
theorem mday_eq {m : ℕ} (hpos : 0 < m) (hle : m ≤ 12) : mday.getD (m - 1) 0 = UInt64.ofNat (monthDays 1 m) := by
  interval_cases m <;> rfl

theorem monthDays_common (y : ℕ) {m : ℕ} (h : m ≠ 2) : monthDays y m = monthDays 1 m := by
  rw [monthDays, monthDays, if_neg h, if_neg h]

/-- A date of the calendar passes. -/
theorem checkDay_eq (d : Date) (h : d.year < 10000) :
    checkDay (UInt64.ofNat d.year) (Int64.ofNat (d.month - 1)) (UInt64.ofNat d.day) = pure () := by
  have hpos := d.month_pos
  have hle := d.month_le
  have hday := d.day_le
  have hmax := monthDays_le d.year d.month
  have hfebruary : Int64.ofNat (d.month - 1) = 1 ↔ d.month = 2 := by
    generalize d.month = m at hpos hle
    interval_cases m <;> decide
  have hlast : UInt64.ofNat d.day = 29 ↔ d.day = 29 := ofNat_eq_iff (by omega) (by decide)
  rw [checkDay]
  simp only [hfebruary, hlast]
  split
  · rename_i hleap
    rw [hleap.1, hleap.2] at hday
    have hyear : Leap d.year := by
      by_contra hnot
      rw [monthDays, if_pos rfl, if_neg hnot] at hday
      exact absurd hday (by decide)
    have hcentury : UInt64.ofNat d.year % 100 = 0 ↔ d.year % 100 = 0 := ofNat_mod_eq_zero (by omega) (by decide)
    have hcycle : UInt64.ofNat d.year % 400 = 0 ↔ d.year % 400 = 0 := ofNat_mod_eq_zero (by omega) (by decide)
    rw [errorIf, if_neg]
    rw [and_three (by omega), hcentury, ne_eq (UInt64.ofNat d.year % 400), hcycle]
    rintro (hfour | ⟨hhundred, hnot⟩)
    · exact hfour hyear.1
    · exact hyear.2.elim (fun hne => hne hhundred) hnot
  · rename_i hnot
    have hcommon : d.day ≤ monthDays 1 d.month := by
      by_cases htwo : d.month = 2
      · rw [htwo] at hday ⊢
        rw [monthDays, if_pos rfl] at hday
        change d.day ≤ 28
        have : d.day ≠ 29 := fun h29 => hnot ⟨h29, htwo⟩
        split at hday <;> omega
      · rwa [← monthDays_common d.year htwo]
    have hsmall := monthDays_le 1 d.month
    rw [mdayAt_eq (by omega), pure_bind, mday_eq hpos hle, errorIf, if_neg]
    exact UInt64.not_lt.mpr ((UInt64.ofNat_le_iff_le (by rw [UInt64.size]; omega) (by rw [UInt64.size]; omega)).mpr hcommon)

/-- The year that begins in March, and what stands in front of a day in it. -/
theorem shiftYear_eq (d : Date) (h : 0 < d.year) : ∃ y m : ℕ, 0 < m ∧ m ≤ 12 ∧ y ≤ d.year ∧
    shiftYear (UInt64.ofNat d.year) (Int64.ofNat (d.month - 1)) = (UInt64.ofNat y, Int64.ofNat m) ∧
    d.number = 60 + marchDays y + marchMonth m + (d.day - 1) := by
  have hpos := d.month_pos
  have hle := d.month_le
  have hearly : Int64.ofNat (d.month - 1) - 1 ≤ 0 ↔ d.month ≤ 2 := by
    generalize d.month = m at hpos hle
    interval_cases m <;> decide
  rw [shiftYear]
  simp only [hearly]
  split
  · rename_i hbefore
    obtain ⟨y, hy⟩ : ∃ y, d.year = y + 1 := ⟨d.year - 1, by omega⟩
    refine ⟨y, d.month + 10, by omega, by omega, by omega, Prod.ext ?_ ?_, d.number_january hy hbefore⟩
    · rw [hy, UInt64.ofNat_add]
      exact add_sub_cancel_right _ _
    · generalize d.month = m at hpos hbefore
      interval_cases m <;> rfl
  · rename_i hbehind
    refine ⟨d.year, d.month - 2, by omega, by omega, le_rfl, Prod.ext rfl ?_, d.number_march (by omega)⟩
    generalize d.month = m at hpos hle hbehind
    interval_cases m <;> rfl

/-- Gauss' formula gives the seconds behind the epoch. -/
theorem gaussTime_eq {y m day : ℕ} (hy : y < 10000) (hpos : 0 < m) (hle : m ≤ 12) (hday : 0 < day)
    (hepoch : 719468 ≤ marchDays y + marchMonth m + (day - 1)) (hour min sec : ℕ) :
    gaussTime (UInt64.ofNat y) (Int64.ofNat m) (UInt64.ofNat day) (UInt64.ofNat hour) (UInt64.ofNat min) (UInt64.ofNat sec) =
      UInt64.ofNat ((marchDays y + marchMonth m + (day - 1) - 719468) * 86400 + hour * 3600 + min * 60 + sec) := by
  have hmonth : (367 * Int64.ofNat m / 12).toUInt64 = UInt64.ofNat (marchMonth m + 30) := by
    interval_cases m <;> rfl
  have hyears := gaussYears_eq (show y < 2 ^ 32 by omega)
  rw [gaussYears] at hyears
  have hdays : UInt64.ofNat (marchDays y) + UInt64.ofNat (marchMonth m + 30) - 30 + UInt64.ofNat day - 1 - 719527 + 31 + 28 =
      UInt64.ofNat (marchDays y + marchMonth m + (day - 1) - 719468) := by
    rw [UInt64.ofNat_sub hepoch, UInt64.ofNat_add, UInt64.ofNat_add, UInt64.ofNat_add, UInt64.ofNat_sub hday,
      show UInt64.ofNat 30 = 30 from rfl, show UInt64.ofNat 1 = 1 from rfl, show UInt64.ofNat 719468 = 719468 from rfl]
    grind
  rw [gaussTime, hyears, hmonth, hdays, UInt64.ofNat_add, UInt64.ofNat_add, UInt64.ofNat_add, UInt64.ofNat_mul,
    UInt64.ofNat_mul, UInt64.ofNat_mul]
  rfl

/-- The text of a date since the epoch is read as its time. -/
theorem ngxParseHttpTime_dateText (w : Weekday) (d : Date) {hour min sec : ℕ} (hlow : 719528 ≤ d.number)
    (hhigh : d.year < 10000) (hhour : hour < 24) (hmin : min < 60) (hsec : sec < 60) :
    ngxParseHttpTime (dateText w d hour min sec) =
      pure (Int64.ofNat ((d.number - 719528) * 86400 + hour * 3600 + min * 60 + sec)) := by
  have hpos := d.day_pos
  have hday : d.day ≤ 31 := d.day_le.trans (monthDays_le _ _)
  have hyear : 0 < d.year := by
    by_contra hzero
    have hnumber := d.number_year.2
    rw [Nat.eq_zero_of_not_pos hzero] at hnumber
    exact absurd (hlow.trans_lt hnumber) (by decide)
  obtain ⟨y, m, hmpos, hmle, hyle, hshift, hnumber⟩ := shiftYear_eq d hyear
  obtain ⟨hname, hmonth⟩ := monthName_eq (show d.month - 1 < 12 by have := d.month_le; omega)
    ([32] ++ (four d.year ++ ([32] ++ clockText hour min sec)))
  have hlong : 17 ≤ (months.getD (d.month - 1) [] ++ ([32] ++ (four d.year ++ ([32] ++ clockText hour min sec)))).length := by
    rw [List.length_append, hname]
    change 17 ≤ 3 + 18
    decide
  have hbefore := dayBefore_eq (show d.day < 100 by omega) hlong
  have hshort : ¬(two d.day ++ ([32] ++ (months.getD (d.month - 1) [] ++
      ([32] ++ (four d.year ++ ([32] ++ clockText hour min sec)))))).length < 18 := by
    rw [List.length_append, List.length_append]
    change ¬2 + (1 + _) < 18
    omega
  have hdays : marchDays y + marchMonth m + (d.day - 1) - 719468 =
      60 + marchDays y + marchMonth m + (d.day - 1) - 719528 := by omega
  have hclock : ¬(UInt64.ofNat hour > 23 ∨ UInt64.ofNat min > 59 ∨ UInt64.ofNat sec > 59) := by
    have hle : ∀ x k : ℕ, x ≤ k → k < 2 ^ 32 → ¬UInt64.ofNat x > UInt64.ofNat k := by
      intro x k hx hk
      exact UInt64.not_lt.mpr ((UInt64.ofNat_le_iff_le (by rw [UInt64.size]; omega) (by rw [UInt64.size]; omega)).mpr hx)
    rintro (h | h | h)
    · exact hle hour 23 (by omega) (by decide) h
    · exact hle min 59 (by omega) (by decide) h
    · exact hle sec 59 (by omega) (by decide) h
  rw [ngxParseHttpTime, dateText, skipWeekday_eq, dropWhile_two]
  dsimp only
  rw [errorIf_false hshort, pure_bind, hbefore, pure_bind]
  dsimp only
  rw [hmonth, pure_bind, behindMonth_eq hname, pure_bind, yearBehind, if_pos rfl, fourDigits_eq hhigh, pure_bind]
  dsimp only
  rw [dayBehind, if_neg (by decide), pure_bind]
  dsimp only
  rw [expect_eq, pure_bind, clockText, twoDigits_eq (by omega), pure_bind]
  dsimp only
  rw [expect_eq, pure_bind, twoDigits_eq (by omega), pure_bind]
  dsimp only
  rw [expect_eq, pure_bind, twoDigits_eq (by omega), pure_bind]
  dsimp only
  rw [yearAtEnd, if_neg (by decide), pure_bind, errorIf_false hclock, pure_bind, checkDay_eq d hhigh, pure_bind, hshift,
    gaussTime_eq (by omega) hmpos hmle hpos (by omega), UInt64.toInt64_ofNat', hnumber, hdays]

/-- HTTP dates are written and read back, and the reader stays inside of any string. -/
theorem httpTime_roundTrip :
    (∀ t : Int64, 0 ≤ t → t ≤ 253402300799 → (ngxHttpTime t >>= ngxParseHttpTime) = pure t) ∧
      (∀ t : Int64, 0 ≤ t → t ≤ 253402300799 →
        (ngxGmtime t).year.toInt = (dayOf t.toInt.toNat).year ∧ (ngxGmtime t).mon.toInt = (dayOf t.toInt.toNat).month ∧
        (ngxGmtime t).mday.toInt = (dayOf t.toInt.toNat).day ∧
        (ngxGmtime t).wday.toInt = (weekdayOf t.toInt.toNat).number ∧
        (ngxGmtime t).hour.toInt = t.toInt / 3600 % 24 ∧ (ngxGmtime t).min.toInt = t.toInt / 60 % 60 ∧
        (ngxGmtime t).sec.toInt = t.toInt % 60) ∧
      ∀ value : List UInt8, ngxParseHttpTime value ≠ .error .undefined := by
  have hclamp : ∀ t : Int64, 0 ≤ t → t ≤ 253402300799 → clamp t = t.toInt.toNat ∧ (t.toInt.toNat : ℤ) = t.toInt := by
    intro t hpos hle
    rw [Int64.le_iff_toInt_le] at hpos hle
    change 0 ≤ t.toInt at hpos
    change t.toInt ≤ 253402300799 at hle
    exact ⟨Nat.min_eq_left (by omega), Int.toNat_of_nonneg hpos⟩
  refine ⟨fun t hpos hle => ?_, fun t hpos hle => ?_, fun value hvalue => ?_⟩
  · obtain ⟨hn, hcast⟩ := hclamp t hpos hle
    have hbound : clamp t ≤ 253402300799 := Nat.min_le_right _ _
    have hnumber : (dayOf (clamp t)).number = 719528 + clamp t / 86400 := by rw [dayOf, number_iterate, number_epoch]
    rw [ngxHttpTime_eq, pure_bind, ngxParseHttpTime_dateText _ _ (by omega) (year_bounds hbound).2 (by omega) (by omega)
      (by omega), hnumber]
    congr 1
    rw [← Int64.toInt_inj, Int64.toInt_ofNat_of_lt (by omega)]
    omega
  · obtain ⟨hn, hcast⟩ := hclamp t hpos hle
    have hfields := ngxGmtime_eq t
    rw [hn] at hfields
    obtain ⟨hyear, hmon, hmday, hwday, hhour, hmin, hsec⟩ := hfields
    refine ⟨hyear, hmon, hmday, hwday, hhour.trans ?_, hmin.trans ?_, hsec.trans ?_⟩
    · omega
    · omega
    · omega
  · have hsafe := ngxParseHttpTime_safe value
    rw [hvalue] at hsafe
    exact hsafe

/-- The first second of 29 February 2000. -/
theorem httpTime_roundTrip_leapDay : (ngxHttpTime 951782400 >>= ngxParseHttpTime) = pure 951782400 ∧
    (ngxGmtime 951782400).mday.toInt = (dayOf 951782400).day :=
  ⟨httpTime_roundTrip.1 951782400 (by decide) (by decide),
    (httpTime_roundTrip.2.1 951782400 (by decide) (by decide)).2.2.1⟩

end NginxDtls.HttpTime
