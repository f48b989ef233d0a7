import NginxDtls.Checked
import NginxDtls.ParseTime
import NginxDtls.Sprintf

/-! HTTP dates: the broken-down time and its text from `ngx_times.c`, and the reader of `ngx_parse_time.c`. An
`ngx_uint_t` is a word of 64 bits, an `ngx_int_t` and a `time_t` are words with a sign. -/

namespace NginxDtls.HttpTime

open Checked Sprintf
open ParseTime (errorIf safe_errorIf)

def chars (s : String) : List UInt8 := s.toUTF8.data.toList

/-! ### `ngx_gmtime` -/

/-- `ngx_tm_t` -/
structure NgxTm where
  sec : Int32
  min : Int32
  hour : Int32
  mday : Int32
  mon : Int32
  year : Int32
  wday : Int32

/-- The cast of an `ngx_uint_t` to an `int`. -/
def toInt (x : UInt64) : Int32 := x.toUInt32.toInt32

/-- `days` and `sec`, no later than the end of the year 9999. -/
def splitTime (t : Int64) : UInt64 × UInt64 :=
  let t := if t < 0 then 0 else t
  let days := (t / 86400).toUInt64
  let sec := (t % 86400).toUInt64
  if days > 2932896 then (2932896, 86399) else (days, sec)

/-- Gauss' formula for the days in years. -/
def gaussYears (year : UInt64) : UInt64 := 365 * year + year / 4 - year / 100 + year / 400

/-- `year` and `yday` in a year that begins on March 1. -/
def yearDay (days : UInt64) : UInt64 × Int64 :=
  let year := (days + 2) * 400 / (365 * 400 + 100 - 4 + 1)
  let yday := (days - gaussYears year).toInt64
  if yday < 0 then
    let leap := if year % 4 = 0 ∧ (year % 100 ≠ 0 ∨ year % 400 = 0) then 1 else 0
    (year - 1, (365 + leap + yday.toUInt64).toInt64)
  else (year, yday)

/-- The empirical formula for the month, and Gauss' formula for the day. -/
def monthDay (yday : Int64) : UInt64 × UInt64 :=
  let mon := ((yday + 31) * 10 / 306).toUInt64
  (mon, yday.toUInt64 - (367 * mon / 12 - 30) + 1)

/-- The month and the year of the calendar: `year++` and `mon -= 10`, or `mon += 2`. -/
def calendarYear (yday : Int64) (year mon : UInt64) : UInt64 × UInt64 :=
  if yday ≥ 306 then (year + 1, mon - 10) else (year, mon + 2)

def ngxGmtime (t : Int64) : NgxTm :=
  let days := (splitTime t).1
  let sec := (splitTime t).2
  let wday := (4 + days) % 7
  let hour := sec / 3600
  let min := sec % 3600 / 60
  let sec := sec % 3600 % 60
  let yd := yearDay (days - (31 + 28) + 719527)
  let md := monthDay yd.2
  let ym := calendarYear yd.2 yd.1 md.1
  ⟨toInt sec, toInt min, toInt hour, toInt md.2, toInt ym.2, toInt ym.1, toInt wday⟩

/-! ### `ngx_http_time` -/

def week : List (List UInt8) := ["Sun", "Mon", "Tue", "Wed", "Thu", "Fri", "Sat"].map chars

def months : List (List UInt8) :=
  ["Jan", "Feb", "Mar", "Apr", "May", "Jun", "Jul", "Aug", "Sep", "Oct", "Nov", "Dec"].map chars

/-- The memory of a string of a table, with the zero behind it. -/
def entry (table : List (List UInt8)) (i : Int32) : Checked NgxInt (List UInt8) :=
  if i < 0 then throw .undefined
  else
    match table[i.toInt.toNat]? with
    | none => throw .undefined
    | some s => pure (s ++ [0])

/-- An argument of type `int`. -/
def intArg (x : Int32) : Arg := .word x.toInt64.toUInt64

/-- `ngx_sprintf` -/
def ngxSprintf (fmt : List UInt8) (args : List Arg) : Checked NgxInt (List UInt8) :=
  if (ngxVslprintf none fmt args).2 then pure (ngxVslprintf none fmt args).1 else throw .undefined

def ngxHttpTime (t : Int64) : Checked NgxInt (List UInt8) := do
  let tm := ngxGmtime t
  let wday ← entry week tm.wday
  let mon ← entry months (tm.mon - 1)
  ngxSprintf (chars "%s, %02d %s %4d %02d:%02d:%02d GMT" ++ [0])
    [.ptr wday, intArg tm.mday, .ptr mon, intArg tm.year, intArg tm.hour, intArg tm.min, intArg tm.sec]

/-! ### `ngx_parse_http_time` -/

inductive Fmt where
  | no | rfc822 | rfc850 | isoc
  deriving DecidableEq, Repr

/-- The loop up to a comma or a space, and the step over it. A `p` behind `end` is an empty string here: it is only
compared with `end`. -/
def skipWeekday : List UInt8 → Fmt × List UInt8
  | [] => (.no, [])
  | c :: p => if c = 44 then (.no, p) else if c = 32 then (.isoc, p) else skipWeekday p

/-- `*p < '0' || *p > '9'` -/
def notDigit (c : UInt8) : Prop := c < 48 ∨ c > 57

instance (c : UInt8) : Decidable (notDigit c) := inferInstanceAs (Decidable (_ ∨ _))

/-- `*p - '0'` -/
def digit (c : UInt8) : UInt64 := (c - 48).toUInt64

/-- `*p`, if it is a digit. -/
def digitAt (p : List UInt8) (i : ℕ) : Checked NgxInt UInt64 := do
  let c ← peekAt p i
  errorIf (notDigit c)
  pure (digit c)

/-- `(*p - '0') * 10 + (*(p + 1) - '0')` -/
def twoDigits (p : List UInt8) : Checked NgxInt (UInt64 × List UInt8) := do
  let a ← digitAt p 0
  let b ← digitAt p 1
  pure (a * 10 + b, p.drop 2)

def fourDigits (p : List UInt8) : Checked NgxInt (UInt64 × List UInt8) := do
  let a ← digitAt p 0
  let b ← digitAt p 1
  let c ← digitAt p 2
  let d ← digitAt p 3
  pure (a * 1000 + b * 100 + c * 10 + d, p.drop 4)

/-- `if (*p++ != c) { return NGX_ERROR; }` -/
def expect (c : UInt8) (p : List UInt8) : Checked NgxInt (List UInt8) := do
  let ch ← peekAt p 0
  errorIf (ch ≠ c)
  pure (p.drop 1)

/-- The day in front of the month, which tells the format. -/
def dayBefore (fmt : Fmt) (p : List UInt8) : Checked NgxInt (Fmt × UInt64 × List UInt8) :=
  if fmt ≠ .isoc then do
    let (day, p) ← twoDigits p
    let c ← peekAt p 0
    if c = 32 then do
      errorIf (p.length < 18)
      pure (.rfc822, day, p.drop 1)
    else if c = 45 then pure (.rfc850, day, p.drop 1)
    else throw (.returned .error)
  else pure (fmt, 32, p)

/-- The switch over the name of the month. -/
def monthName (p : List UInt8) : Checked NgxInt Int64 := do
  let c ← peekAt p 0
  if c = 74 then do
    let c ← peekAt p 1
    if c = 97 then pure 0
    else do
      let c ← peekAt p 2
      pure (if c = 110 then 5 else 6)
  else if c = 70 then pure 1
  else if c = 77 then do
    let c ← peekAt p 2
    pure (if c = 114 then 2 else 4)
  else if c = 65 then do
    let c ← peekAt p 1
    pure (if c = 112 then 3 else 7)
  else if c = 83 then pure 8
  else if c = 79 then pure 9
  else if c = 78 then pure 10
  else if c = 68 then pure 11
  else throw (.returned .error)

/-- The step over the name and the separator, which is looked at in two of the formats. -/
def behindMonth (fmt : Fmt) (p : List UInt8) : Checked NgxInt (List UInt8) :=
  if fmt = .rfc822 then expect 32 (p.drop 3)
  else if fmt = .rfc850 then expect 45 (p.drop 3)
  else pure (p.drop 4)

/-- The year behind the month. -/
def yearBehind (fmt : Fmt) (p : List UInt8) : Checked NgxInt (UInt64 × List UInt8) :=
  if fmt = .rfc822 then fourDigits p
  else if fmt = .rfc850 then do
    let (year, p) ← twoDigits p
    pure (year + (if year < 70 then 2000 else 1900), p)
  else pure (2038, p)

/-- The second digit of a day, if there is one. -/
def secondDigit (day : UInt64) (p : List UInt8) : Checked NgxInt (UInt64 × List UInt8) := do
  let c ← peekAt p 0
  if c ≠ 32 then do
    let b ← digitAt p 0
    pure (day * 10 + b, p.drop 1)
  else pure (day, p)

/-- The day behind the month. -/
def dayBehind (fmt : Fmt) (day : UInt64) (p : List UInt8) : Checked NgxInt (UInt64 × List UInt8) :=
  if fmt = .isoc then do
    let c ← peekAt p 0
    let p := if c = 32 then p.drop 1 else p
    let day ← digitAt p 0
    let (day, p) ← secondDigit day (p.drop 1)
    errorIf (p.length < 14)
    pure (day, p)
  else pure (day, p)

/-- The year at the end. -/
def yearAtEnd (fmt : Fmt) (year : UInt64) (p : List UInt8) : Checked NgxInt UInt64 :=
  if fmt = .isoc then do
    let p ← expect 32 p
    let (year, _) ← fourDigits p
    pure year
  else pure year

/-- `mday` -/
def mday : List UInt64 := [31, 28, 31, 30, 31, 30, 31, 31, 30, 31, 30, 31]

/-- `mday[month]` -/
def mdayAt (month : Int64) : Checked NgxInt UInt64 :=
  if month < 0 then throw .undefined
  else
    match mday[month.toInt.toNat]? with
    | none => throw .undefined
    | some days => pure days

def checkDay (year : UInt64) (month : Int64) (day : UInt64) : Checked NgxInt Unit :=
  if day = 29 ∧ month = 1 then errorIf (year &&& 3 ≠ 0 ∨ year % 100 = 0 ∧ year % 400 ≠ 0)
  else do
    let days ← mdayAt month
    errorIf (day > days)

/-- The year and the month in a year that begins on March 1, with months from 1. -/
def shiftYear (year : UInt64) (month : Int64) : UInt64 × Int64 :=
  if month - 1 ≤ 0 then (year - 1, month - 1 + 12) else (year, month - 1)

/-- Gauss' formula. -/
def gaussTime (year : UInt64) (month : Int64) (day hour min sec : UInt64) : UInt64 :=
  (365 * year + year / 4 - year / 100 + year / 400 + (367 * month / 12).toUInt64 - 30 + day - 1 - 719527 + 31 + 28) *
    86400 + hour * 3600 + min * 60 + sec

def ngxParseHttpTime (value : List UInt8) : Checked NgxInt Int64 := do
  let fmt := (skipWeekday value).1
  let p := (skipWeekday value).2.dropWhile (· = 32)
  errorIf (p.length < 18)
  let (fmt, day, p) ← dayBefore fmt p
  let month ← monthName p
  let p ← behindMonth fmt p
  let (year, p) ← yearBehind fmt p
  let (day, p) ← dayBehind fmt day p
  let p ← expect 32 p
  let (hour, p) ← twoDigits p
  let p ← expect 58 p
  let (min, p) ← twoDigits p
  let p ← expect 58 p
  let (sec, p) ← twoDigits p
  let year ← yearAtEnd fmt year p
  errorIf (hour > 23 ∨ min > 59 ∨ sec > 59)
  checkDay year month day
  let (year, month) := shiftYear year month
  pure (gaussTime year month day hour min sec).toInt64

/-! ### Reads -/

theorem safe_peekAt {ρ : Type} {p : List UInt8} {i : ℕ} (h : i < p.length) :
    Safe (peekAt p i : Checked ρ UInt8) fun _ => True := by
  rw [peekAt_eq (List.getElem?_eq_getElem h)]
  exact trivial

theorem safe_digitAt {p : List UInt8} {i : ℕ} (h : i < p.length) : Safe (digitAt p i) fun _ => True := by
  rw [digitAt]
  exact safe_bind (safe_peekAt h) fun _ _ => safe_bind (safe_errorIf _) fun _ _ => trivial

theorem safe_twoDigits {p : List UInt8} (h : 2 ≤ p.length) :
    Safe (twoDigits p) fun r => r.2.length = p.length - 2 := by
  rw [twoDigits]
  refine safe_bind (safe_digitAt (by omega)) fun _ _ => ?_
  exact safe_bind (safe_digitAt (by omega)) fun _ _ => safe_pure List.length_drop

theorem safe_fourDigits {p : List UInt8} (h : 4 ≤ p.length) :
    Safe (fourDigits p) fun r => r.2.length = p.length - 4 := by
  rw [fourDigits]
  refine safe_bind (safe_digitAt (by omega)) fun _ _ => ?_
  refine safe_bind (safe_digitAt (by omega)) fun _ _ => ?_
  refine safe_bind (safe_digitAt (by omega)) fun _ _ => ?_
  exact safe_bind (safe_digitAt (by omega)) fun _ _ => safe_pure List.length_drop

theorem safe_expect {c : UInt8} {p : List UInt8} (h : 1 ≤ p.length) :
    Safe (expect c p) fun p' => p'.length = p.length - 1 := by
  rw [expect]
  exact safe_bind (safe_peekAt h) fun _ _ => safe_bind (safe_errorIf _) fun _ _ => safe_pure List.length_drop

/-- How many bytes are left at least, by the format. -/
def AtLeast (rfc822 rfc850 isoc : ℕ) (fmt : Fmt) (p : List UInt8) : Prop :=
  match fmt with
  | .no => False
  | .rfc822 => rfc822 ≤ p.length
  | .rfc850 => rfc850 ≤ p.length
  | .isoc => isoc ≤ p.length

theorem AtLeast.drop {a b c k : ℕ} {fmt : Fmt} {p p' : List UInt8} (h : AtLeast (a + k) (b + k) (c + k) fmt p)
    (hp' : p'.length = p.length - k) : AtLeast a b c fmt p' := by
  cases fmt with
  | no => exact h
  | rfc822 => exact (Nat.le_sub_of_add_le h).trans_eq hp'.symm
  | rfc850 => exact (Nat.le_sub_of_add_le h).trans_eq hp'.symm
  | isoc => exact (Nat.le_sub_of_add_le h).trans_eq hp'.symm

theorem AtLeast.length_le {a b c k : ℕ} {fmt : Fmt} {p : List UInt8} (h : AtLeast a b c fmt p) (ha : k ≤ a)
    (hb : k ≤ b) (hc : k ≤ c) : k ≤ p.length := by
  cases fmt with
  | no => exact h.elim
  | rfc822 => exact ha.trans h
  | rfc850 => exact hb.trans h
  | isoc => exact hc.trans h

theorem safe_dayBefore {fmt : Fmt} {p : List UInt8} (h : 18 ≤ p.length) :
    Safe (dayBefore fmt p) fun r => AtLeast 17 15 18 r.1 r.2.2 := by
  rw [dayBefore]
  refine safe_ite (fun _ => ?_) fun hisoc => ?_
  · refine safe_bind (safe_twoDigits (by omega)) fun r hr => ?_
    refine safe_bind (safe_peekAt (by omega)) fun c _ => ?_
    refine safe_ite (fun _ => ?_) fun _ => safe_ite (fun _ => ?_) fun _ => safe_return _
    · refine safe_bind (safe_errorIf _) fun _ hlong => safe_pure ?_
      change 17 ≤ (r.2.drop 1).length
      rw [List.length_drop]
      omega
    · change 15 ≤ (r.2.drop 1).length
      rw [List.length_drop]
      omega
  · rw [not_not] at hisoc
    rw [hisoc]
    exact h

theorem safe_monthName {p : List UInt8} (h : 3 ≤ p.length) :
    Safe (monthName p) fun month => ∃ m : ℕ, m < 12 ∧ month = Int64.ofNat m := by
  rw [monthName]
  refine safe_bind (safe_peekAt (by omega)) fun _ _ => ?_
  refine safe_ite (fun _ => ?_) fun _ => ?_
  · refine safe_bind (safe_peekAt (by omega)) fun _ _ => ?_
    refine safe_ite (fun _ => ⟨0, by decide, rfl⟩) fun _ => ?_
    refine safe_bind (safe_peekAt (by omega)) fun _ _ => safe_pure ?_
    split
    · exact ⟨5, by decide, rfl⟩
    · exact ⟨6, by decide, rfl⟩
  refine safe_ite (fun _ => ⟨1, by decide, rfl⟩) fun _ => ?_
  refine safe_ite (fun _ => ?_) fun _ => ?_
  · refine safe_bind (safe_peekAt (by omega)) fun _ _ => safe_pure ?_
    split
    · exact ⟨2, by decide, rfl⟩
    · exact ⟨4, by decide, rfl⟩
  refine safe_ite (fun _ => ?_) fun _ => ?_
  · refine safe_bind (safe_peekAt (by omega)) fun _ _ => safe_pure ?_
    split
    · exact ⟨3, by decide, rfl⟩
    · exact ⟨7, by decide, rfl⟩
  refine safe_ite (fun _ => ⟨8, by decide, rfl⟩) fun _ => ?_
  refine safe_ite (fun _ => ⟨9, by decide, rfl⟩) fun _ => ?_
  refine safe_ite (fun _ => ⟨10, by decide, rfl⟩) fun _ => ?_
  exact safe_ite (fun _ => ⟨11, by decide, rfl⟩) fun _ => safe_return _

theorem safe_behindMonth {fmt : Fmt} {p : List UInt8} (h : AtLeast 17 15 18 fmt p) :
    Safe (behindMonth fmt p) fun p' => AtLeast 13 11 14 fmt p' := by
  have hname : AtLeast 14 12 15 fmt (p.drop 3) := h.drop List.length_drop
  have hexpect : ∀ c, Safe (expect c (p.drop 3)) fun p' => AtLeast 13 11 14 fmt p' := by
    intro c
    exact (safe_expect (hname.length_le (by decide) (by decide) (by decide))).mono fun p' hp' => hname.drop hp'
  rw [behindMonth]
  exact safe_ite (fun _ => hexpect 32) fun _ => safe_ite (fun _ => hexpect 45) fun _ => safe_pure (h.drop List.length_drop)

theorem safe_yearBehind {fmt : Fmt} {p : List UInt8} (h : AtLeast 13 11 14 fmt p) :
    Safe (yearBehind fmt p) fun r => AtLeast 9 9 14 fmt r.2 := by
  cases fmt with
  | no => exact h.elim
  | rfc822 =>
      change 13 ≤ p.length at h
      refine (safe_fourDigits (by omega)).mono fun r hr => ?_
      change 9 ≤ r.2.length
      omega
  | rfc850 =>
      change 11 ≤ p.length at h
      refine safe_bind (safe_twoDigits (by omega)) fun r hr => safe_pure ?_
      change 9 ≤ r.2.length
      omega
  | isoc => exact h

theorem safe_secondDigit {day : UInt64} {p : List UInt8} (h : 1 ≤ p.length) : Safe (secondDigit day p) fun _ => True := by
  rw [secondDigit]
  refine safe_bind (safe_peekAt h) fun _ _ => safe_ite (fun _ => ?_) fun _ => trivial
  exact safe_bind (safe_digitAt h) fun _ _ => trivial

theorem safe_dayBehind {fmt : Fmt} {day : UInt64} {p : List UInt8} (h : AtLeast 9 9 14 fmt p) :
    Safe (dayBehind fmt day p) fun r => AtLeast 9 9 14 fmt r.2 := by
  cases fmt with
  | no => exact h.elim
  | rfc822 => exact h
  | rfc850 => exact h
  | isoc =>
      change 14 ≤ p.length at h
      rw [dayBehind, if_pos rfl]
      refine safe_bind (safe_peekAt (by omega)) fun c _ => ?_
      have hspace : 13 ≤ (if c = 32 then p.drop 1 else p).length := by
        split
        · rw [List.length_drop]
          omega
        · omega
      refine safe_bind (safe_digitAt (by omega)) fun first _ => ?_
      refine safe_bind (safe_secondDigit (by rw [List.length_drop]; omega)) fun r _ => ?_
      refine safe_bind (safe_errorIf _) fun _ hlong => safe_pure ?_
      change 14 ≤ r.2.length
      omega

theorem safe_yearAtEnd {fmt : Fmt} {year : UInt64} {p : List UInt8} (h : AtLeast 0 0 5 fmt p) :
    Safe (yearAtEnd fmt year p) fun _ => True := by
  cases fmt with
  | no => exact h.elim
  | rfc822 => exact trivial
  | rfc850 => exact trivial
  | isoc =>
      change 5 ≤ p.length at h
      refine safe_bind (safe_expect (by omega)) fun p' hp' => ?_
      exact safe_bind (safe_fourDigits (by omega)) fun _ _ => trivial

theorem mdayAt_eq {m : ℕ} (h : m < 12) : mdayAt (Int64.ofNat m) = pure (mday.getD m 0) := by
  interval_cases m <;> rfl

theorem safe_checkDay {year day : UInt64} {month : Int64} (h : ∃ m : ℕ, m < 12 ∧ month = Int64.ofNat m) :
    Safe (checkDay year month day) fun _ => True := by
  obtain ⟨m, hm, rfl⟩ := h
  rw [checkDay]
  refine safe_ite (fun _ => (safe_errorIf _).mono fun _ _ => trivial) fun _ => ?_
  rw [mdayAt_eq hm, pure_bind]
  exact (safe_errorIf _).mono fun _ _ => trivial

/-- Every read is inside the string. -/
theorem ngxParseHttpTime_safe (value : List UInt8) : Safe (ngxParseHttpTime value) fun _ => True := by
  rw [ngxParseHttpTime]
  refine safe_bind (safe_errorIf _) fun _ hlong => ?_
  refine safe_bind (safe_dayBefore (Nat.le_of_not_lt hlong)) fun day hday => ?_
  refine safe_bind (safe_monthName (hday.length_le (by decide) (by decide) (by decide))) fun month hmonth => ?_
  refine safe_bind (safe_behindMonth hday) fun p hp => ?_
  refine safe_bind (safe_yearBehind hp) fun year hyear => ?_
  refine safe_bind (safe_dayBehind hyear) fun day' hday' => ?_
  refine safe_bind (safe_expect (hday'.length_le (by decide) (by decide) (by decide))) fun p1 hp1 => ?_
  have h1 : AtLeast 8 8 13 day.1 p1 := hday'.drop hp1
  refine safe_bind (safe_twoDigits (h1.length_le (by decide) (by decide) (by decide))) fun hour hhour => ?_
  have h2 : AtLeast 6 6 11 day.1 hour.2 := h1.drop hhour
  refine safe_bind (safe_expect (h2.length_le (by decide) (by decide) (by decide))) fun p3 hp3 => ?_
  have h3 : AtLeast 5 5 10 day.1 p3 := h2.drop hp3
  refine safe_bind (safe_twoDigits (h3.length_le (by decide) (by decide) (by decide))) fun min hmin => ?_
  have h4 : AtLeast 3 3 8 day.1 min.2 := h3.drop hmin
  refine safe_bind (safe_expect (h4.length_le (by decide) (by decide) (by decide))) fun p5 hp5 => ?_
  have h5 : AtLeast 2 2 7 day.1 p5 := h4.drop hp5
  refine safe_bind (safe_twoDigits (h5.length_le (by decide) (by decide) (by decide))) fun sec hsec => ?_
  have h6 : AtLeast 0 0 5 day.1 sec.2 := h5.drop hsec
  refine safe_bind (safe_yearAtEnd h6) fun _ _ => ?_
  refine safe_bind (safe_errorIf _) fun _ _ => ?_
  exact safe_bind (safe_checkDay hmonth) fun _ _ => trivial

end NginxDtls.HttpTime
