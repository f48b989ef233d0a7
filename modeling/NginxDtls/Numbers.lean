import NginxDtls.Checked
import NginxDtls.Core
import NginxDtls.Bytes
import NginxDtls.Digits
import NginxDtls.InetParse

/-! Numbers in configuration: the readers of `ngx_string.c` for numbers and of `ngx_parse.c` for sizes and offsets. The
overflow of a signed operation is undefined. -/

namespace NginxDtls.Numbers

open Checked Digits

/-- `NGX_MAX_INT_T_VALUE` -/
def maxIntT : ℤ := 9223372036854775807

/-- `NGX_MAX_SIZE_T_VALUE` -/
def maxSizeT : ℤ := 9223372036854775807

/-- `NGX_MAX_OFF_T_VALUE` -/
def maxOffT : ℤ := 9223372036854775807

/-- `NGX_MAX_TIME_T_VALUE` -/
def maxTimeT : ℤ := 9223372036854775807

/-- The result of a signed operation on 64 bits. -/
def signed (x : ℤ) : Checked NgxInt ℤ := if -2 ^ 63 ≤ x ∧ x < 2 ^ 63 then pure x else throw .undefined

/-! ### Digits -/

/-- The loop of `ngx_atoi` and its siblings, for a type with the maximum `max`. -/
def atoiLoop (max : ℤ) : List UInt8 → ℤ → Checked NgxInt ℤ
  | [], value => pure value
  | c :: line, value =>
    if c < 48 ∨ c > 57 then throw (.returned .error)
    else if value ≥ max / 10 ∧ (value > max / 10 ∨ (c.toNat - 48 : ℤ) > max % 10) then throw (.returned .error)
    else do
      let shifted ← signed (value * 10)
      let value ← signed (shifted + (c.toNat - 48))
      atoiLoop max line value

def ngxAtoi (line : List UInt8) : Checked NgxInt ℤ :=
  if line.isEmpty then throw (.returned .error) else atoiLoop maxIntT line 0

def ngxAtosz (line : List UInt8) : Checked NgxInt ℤ :=
  if line.isEmpty then throw (.returned .error) else atoiLoop maxSizeT line 0

def ngxAtoof (line : List UInt8) : Checked NgxInt ℤ :=
  if line.isEmpty then throw (.returned .error) else atoiLoop maxOffT line 0

def ngxAtotm (line : List UInt8) : Checked NgxInt ℤ :=
  if line.isEmpty then throw (.returned .error) else atoiLoop maxTimeT line 0

def hextoiLoop : List UInt8 → ℤ → Checked NgxInt ℤ
  | [], value => pure value
  | ch :: line, value =>
    if value > maxIntT / 16 then throw (.returned .error)
    else if ch ≥ 48 ∧ ch ≤ 57 then do
      let shifted ← signed (value * 16)
      let value ← signed (shifted + (ch.toNat - 48))
      hextoiLoop line value
    else
      let c := ch ||| 0x20
      if c ≥ 97 ∧ c ≤ 102 then do
        let shifted ← signed (value * 16)
        let value ← signed (shifted + (c.toNat - 97 + 10))
        hextoiLoop line value
      else throw (.returned .error)

def ngxHextoi (line : List UInt8) : Checked NgxInt ℤ :=
  if line.isEmpty then throw (.returned .error) else hextoiLoop line 0

/-! ### Units -/

/-- The end of `ngx_parse_size` and `ngx_parse_offset`: the number times the unit, if it is not above `max`. -/
def scaled (number : Checked NgxInt ℤ) (max scale : ℤ) : Checked NgxInt ℤ := do
  let size ← number
  if size > max then throw (.returned .error)
  signed (size * scale)

def ngxParseSize (line : List UInt8) : Checked NgxInt ℤ :=
  match line.getLast? with
  | none => throw (.returned .error)
  | some unit =>
    if unit = 75 ∨ unit = 107 then scaled (ngxAtosz line.dropLast) (maxSizeT / 1024) 1024
    else if unit = 77 ∨ unit = 109 then scaled (ngxAtosz line.dropLast) (maxSizeT / (1024 * 1024)) (1024 * 1024)
    else scaled (ngxAtosz line) maxSizeT 1

def ngxParseOffset (line : List UInt8) : Checked NgxInt ℤ :=
  match line.getLast? with
  | none => throw (.returned .error)
  | some unit =>
    if unit = 75 ∨ unit = 107 then scaled (ngxAtoof line.dropLast) (maxOffT / 1024) 1024
    else if unit = 77 ∨ unit = 109 then scaled (ngxAtoof line.dropLast) (maxOffT / (1024 * 1024)) (1024 * 1024)
    else if unit = 71 ∨ unit = 103 then
      scaled (ngxAtoof line.dropLast) (maxOffT / (1024 * 1024 * 1024)) (1024 * 1024 * 1024)
    else scaled (ngxAtoof line) maxOffT 1

/-! ### What the strings denote -/

/-- A decimal digit. -/
def decimal (c : UInt8) : Option ℕ := if 48 ≤ c ∧ c ≤ 57 then some (c.toNat - 48) else none

/-- A hexadecimal digit, in either case. -/
def hexadecimal (c : UInt8) : Option ℕ :=
  if 48 ≤ c ∧ c ≤ 57 then some (c.toNat - 48)
  else if 97 ≤ c ∧ c ≤ 102 then some (c.toNat - 97 + 10)
  else if 65 ≤ c ∧ c ≤ 70 then some (c.toNat - 65 + 10)
  else none

/-- The unit of a size. -/
def sizeUnit (c : UInt8) : Option ℕ :=
  if c = 75 ∨ c = 107 then some 1024 else if c = 77 ∨ c = 109 then some (1024 * 1024) else none

/-- The unit of an offset. -/
def offsetUnit (c : UInt8) : Option ℕ :=
  if c = 75 ∨ c = 107 then some 1024 else if c = 77 ∨ c = 109 then some (1024 * 1024)
  else if c = 71 ∨ c = 103 then some (1024 * 1024 * 1024) else none

/-- Decimal digits, or decimal digits and a unit behind them. -/
inductive Quantity (unit : UInt8 → Option ℕ) : List UInt8 → ℕ → Prop
  | plain {line : List UInt8} {n : ℕ} (hline : denoted 10 decimal line = some n) : Quantity unit line n
  | scaled {line : List UInt8} {c : UInt8} {n scale : ℕ} (hline : denoted 10 decimal line = some n)
      (hc : unit c = some scale) : Quantity unit (line ++ [c]) (n * scale)

/-- A reader returns what the string denotes if that is at most `max`, and `NGX_ERROR` for every other string. -/
structure Exact (read : List UInt8 → Checked NgxInt ℤ) (denotes : List UInt8 → ℕ → Prop) (max : ℤ) : Prop where
  ok : ∀ line v, read line = .ok v ↔ ∃ n : ℕ, denotes line n ∧ n ≤ max ∧ v = n
  error : ∀ line, (¬∃ n : ℕ, denotes line n ∧ n ≤ max) → read line = .error (.returned .error)

/-! ### The digits are read exactly -/

/-- A number, or `NGX_ERROR`. -/
def ofOption : Option ℕ → Checked NgxInt ℤ
  | some n => pure n
  | none => throw (.returned .error)

theorem signed_of_lt {n : ℕ} (hn : n < 2 ^ 63) : signed (n : ℤ) = pure (n : ℤ) := by
  rw [signed, if_pos (by omega)]

theorem decimal_eq {c : UInt8} {d : ℕ} (h : decimal c = some d) : ¬(c < 48 ∨ c > 57) ∧ c.toNat = d + 48 ∧ d ≤ 9 := by
  rw [decimal] at h
  split at h
  · rename_i hc
    simp only [UInt8.le_iff_toNat_le, UInt8.reduceToNat] at hc
    simp only [UInt8.lt_iff_toNat_lt, UInt8.reduceToNat]
    have := Option.some.inj h
    omega
  · exact absurd h (by simp)

theorem decimal_none {c : UInt8} (h : decimal c = none) : c < 48 ∨ c > 57 := by
  rw [decimal] at h
  split at h
  · exact absurd h (by simp)
  · rename_i hc
    simp only [UInt8.le_iff_toNat_le, UInt8.reduceToNat] at hc
    simp only [UInt8.lt_iff_toNat_lt, UInt8.reduceToNat]
    omega

/-- The test against the rounded maximum is exact. -/
theorem cut_iff {max v d : ℕ} (hd : d ≤ 9) :
    (v : ℤ) ≥ max / 10 ∧ ((v : ℤ) > max / 10 ∨ (d : ℤ) > max % 10) ↔ ¬v * 10 + d ≤ max := by
  omega

/-- A digit that is put behind a number. -/
theorem signed_digit {v b d : ℕ} (hle : v * b + d < 2 ^ 63) :
    signed ((v : ℤ) * b) = pure ((v * b : ℕ) : ℤ) ∧
      signed (((v * b : ℕ) : ℤ) + d) = pure ((v * b + d : ℕ) : ℤ) := by
  constructor
  · rw [← signed_of_lt (by omega), Nat.cast_mul]
  · rw [← signed_of_lt hle, Nat.cast_add]

theorem atoiLoop_eq {max : ℕ} (hmax : max < 2 ^ 63) (line : List UInt8) {v : ℕ} (hv : v ≤ max) :
    atoiLoop max line v = ofOption (scan 10 max decimal line v) := by
  induction line generalizing v with
  | nil => rfl
  | cons c line ih =>
      rw [atoiLoop, scan]
      cases hc : decimal c with
      | none => rw [if_pos (decimal_none hc), Option.bind_none, ofOption]
      | some d =>
          obtain ⟨hrange, hcd, hd⟩ := decimal_eq hc
          have hdigit : ((c.toNat : ℤ) - 48) = d := by omega
          rw [if_neg hrange, hdigit, Option.bind_some]
          by_cases hle : v * 10 + d ≤ max
          · obtain ⟨hshift, hadd⟩ := signed_digit (hle.trans_lt hmax)
            rw [Nat.cast_ofNat] at hshift
            rw [if_neg (fun hcut => (cut_iff hd).mp hcut hle), hshift, pure_bind, hadd, pure_bind, ih hle, atMost, if_pos hle,
              Option.bind_some]
          · rw [if_pos ((cut_iff hd).mpr hle), atMost, if_neg hle, Option.bind_none, ofOption]

/-- The digits that `ngx_hextoi` reads as they are and the ones it reads in lower case. -/
theorem hexadecimal_cases (c : UInt8) :
    (∃ d ≤ 9, hexadecimal c = some d ∧ (c ≥ 48 ∧ c ≤ 57) ∧ c.toNat = d + 48) ∨
      (∃ d ≤ 15, hexadecimal c = some d ∧ ¬(c ≥ 48 ∧ c ≤ 57) ∧ (c ||| 0x20 ≥ 97 ∧ c ||| 0x20 ≤ 102) ∧
        (c ||| 0x20).toNat = d + 87) ∨
      hexadecimal c = none ∧ ¬(c ≥ 48 ∧ c ≤ 57) ∧ ¬(c ||| 0x20 ≥ 97 ∧ c ||| 0x20 ≤ 102) := by
  revert c
  apply forall_byte
  decide +kernel

/-- The test before the next digit is read is exact too, since the maximum is one less than a multiple of 16. -/
theorem hextoiLoop_eq (line : List UInt8) {v : ℕ} (hv : v ≤ 9223372036854775807) :
    hextoiLoop line v = ofOption (scan 16 9223372036854775807 hexadecimal line v) := by
  induction line generalizing v with
  | nil => rfl
  | cons c line ih =>
      rw [hextoiLoop, scan]
      by_cases hcut : (v : ℤ) > maxIntT / 16
      · rw [if_pos hcut]
        rw [maxIntT] at hcut
        cases hc : hexadecimal c with
        | none => rfl
        | some d =>
            have habove : ¬v * 16 + d ≤ 9223372036854775807 := by omega
            rw [Option.bind_some, atMost, if_neg habove, Option.bind_none, ofOption]
      · rw [if_neg hcut]
        rw [maxIntT] at hcut
        rcases hexadecimal_cases c with ⟨d, hd, hc, hrange, hvalue⟩ | ⟨d, hd, hc, hrange, hletter, hvalue⟩ |
          ⟨hc, hrange, hletter⟩
        · have hle : v * 16 + d ≤ 9223372036854775807 := by omega
          have hdigit : ((c.toNat : ℤ) - 48) = d := by omega
          obtain ⟨hshift, hadd⟩ := signed_digit (hle.trans_lt (by decide))
          rw [Nat.cast_ofNat] at hshift
          rw [if_pos hrange, hdigit, hshift, pure_bind, hadd, pure_bind, ih hle, hc, Option.bind_some, atMost,
            if_pos hle, Option.bind_some]
        · have hle : v * 16 + d ≤ 9223372036854775807 := by omega
          have hdigit : (((c ||| 0x20).toNat : ℤ) - 97 + 10) = d := by omega
          obtain ⟨hshift, hadd⟩ := signed_digit (hle.trans_lt (by decide))
          rw [Nat.cast_ofNat] at hshift
          rw [if_neg hrange, if_pos hletter, hdigit, hshift, pure_bind, hadd, pure_bind, ih hle, hc, Option.bind_some,
            atMost, if_pos hle, Option.bind_some]
        · rw [if_neg hrange, if_neg hletter, hc, Option.bind_none, ofOption]

/-! ### Numbers -/

theorem exact_of_eq {read : List UInt8 → Checked NgxInt ℤ} {value : List UInt8 → Option ℕ} {max : ℕ}
    (h : ∀ line, read line = ofOption ((value line).bind (atMost max))) :
    Exact read (fun line n => value line = some n) max := by
  constructor
  · intro line v
    rw [h line]
    constructor
    · intro hv
      cases hread : (value line).bind (atMost max) with
      | none =>
          rw [hread] at hv
          cases hv
      | some n =>
          rw [hread] at hv
          obtain ⟨k, hk, hn⟩ := Option.bind_eq_some_iff.mp hread
          obtain ⟨hle, rfl⟩ := atMost_eq_some.mp hn
          exact ⟨k, hk, by exact_mod_cast hle, (Except.ok.inj hv).symm⟩
    · rintro ⟨n, hn, hle, rfl⟩
      rw [hn, Option.bind_some, atMost, if_pos (by exact_mod_cast hle)]
      rfl
  · intro line hnone
    rw [h line]
    cases hvalue : value line with
    | none => rfl
    | some n =>
        have habove : ¬n ≤ max := fun hle => hnone ⟨n, hvalue, by exact_mod_cast hle⟩
        rw [Option.bind_some, atMost, if_neg habove]
        rfl

/-- A reader of a string that may not be empty, from a loop over its digits. -/
theorem read_eq {digit : UInt8 → Option ℕ} {loop : List UInt8 → ℤ → Checked NgxInt ℤ} {b max : ℕ} (hb : 0 < b)
    (hloop : ∀ line, loop line 0 = ofOption (scan b max digit line 0)) (line : List UInt8) :
    (if line.isEmpty then throw (.returned .error) else loop line 0) =
      ofOption ((denoted b digit line).bind (atMost max)) := by
  rw [denoted]
  split
  · rfl
  · rw [hloop, scan_eq hb line (Nat.zero_le max), Option.bind_map]
    congr 2
    funext ds
    rw [Nat.zero_mul, Nat.zero_add]
    rfl

theorem decimal_read (line : List UInt8) :
    (if line.isEmpty then throw (.returned .error) else atoiLoop 9223372036854775807 line 0) =
      ofOption ((denoted 10 decimal line).bind (atMost 9223372036854775807)) :=
  read_eq (by decide) (fun line => atoiLoop_eq (by decide) line (Nat.zero_le _)) line

theorem ngxAtoi_exact : Exact ngxAtoi (fun line n => denoted 10 decimal line = some n) maxIntT :=
  exact_of_eq decimal_read

theorem ngxAtosz_exact : Exact ngxAtosz (fun line n => denoted 10 decimal line = some n) maxSizeT :=
  exact_of_eq decimal_read

theorem ngxAtoof_exact : Exact ngxAtoof (fun line n => denoted 10 decimal line = some n) maxOffT :=
  exact_of_eq decimal_read

theorem ngxAtotm_exact : Exact ngxAtotm (fun line n => denoted 10 decimal line = some n) maxTimeT :=
  exact_of_eq decimal_read

theorem ngxHextoi_exact : Exact ngxHextoi (fun line n => denoted 16 hexadecimal line = some n) maxIntT :=
  exact_of_eq fun line => read_eq (by decide) (fun line => hextoiLoop_eq line (Nat.zero_le _)) line

/-- Where addresses are parsed, `ngx_atoi` is on natural numbers. -/
theorem ngxAtoi_eq (line : List UInt8) : ngxAtoi line = ofOption (NginxDtls.ngxAtoi line) := by
  have hloop : ∀ (line : List UInt8) (v : ℕ), NginxDtls.atoiLoop line v = scan 10 9223372036854775807 decimal line v := by
    intro line
    induction line with
    | nil => exact fun _ => rfl
    | cons c line ih =>
        intro v
        rw [NginxDtls.atoiLoop, scan]
        cases hc : decimal c with
        | none => rw [if_pos (decimal_none hc), Option.bind_none]
        | some d =>
            obtain ⟨hrange, hcd, hd⟩ := decimal_eq hc
            have hdigit : c.toNat - 48 = d := by omega
            rw [if_neg hrange, hdigit, Option.bind_some]
            by_cases hle : v * 10 + d ≤ 9223372036854775807
            · rw [if_neg (by omega), atMost, if_pos hle, Option.bind_some, ih]
            · rw [if_pos (by omega), atMost, if_neg hle, Option.bind_none]
  rw [ngxAtoi, NginxDtls.ngxAtoi, hloop]
  cases line with
  | nil => rfl
  | cons c line =>
      rw [if_neg (List.cons_ne_nil c line)]
      exact @atoiLoop_eq 9223372036854775807 (by decide) (c :: line) 0 (Nat.zero_le _)

/-! ### Sizes and offsets -/

/-- The number in front of the unit, times the unit. -/
def quantity (unit : UInt8 → Option ℕ) (line : List UInt8) : Option ℕ :=
  match line.getLast? with
  | none => none
  | some c =>
    match unit c with
    | some scale => (denoted 10 decimal line.dropLast).map (· * scale)
    | none => denoted 10 decimal line

theorem scaled_eq (value : Option ℕ) {max scale : ℕ} (hmax : max < 2 ^ 63) (hscale : 0 < scale) :
    scaled (ofOption (value.bind (atMost max))) (max / scale) scale =
      ofOption ((value.map (· * scale)).bind (atMost max)) := by
  cases value with
  | none => rfl
  | some n =>
      rw [Option.map_some, Option.bind_some, Option.bind_some]
      by_cases hle : n * scale ≤ max
      · have hn : n ≤ max := (Nat.le_mul_of_pos_right n hscale).trans hle
        have hdiv : ¬(n : ℤ) > max / scale := by
          have := (Nat.le_div_iff_mul_le hscale).mpr hle
          have hcast : ((max / scale : ℕ) : ℤ) = (max : ℤ) / scale := rfl
          omega
        rw [atMost, if_pos hn, atMost, if_pos hle, scaled, ofOption, pure_bind, if_neg hdiv]
        exact (signed_of_lt (hle.trans_lt hmax))
      · rw [atMost, atMost, if_neg hle]
        split
        · have hdiv : (n : ℤ) > max / scale := by
            have := (Nat.le_div_iff_mul_le hscale).not.mpr hle
            have hcast : ((max / scale : ℕ) : ℤ) = (max : ℤ) / scale := rfl
            omega
          rw [scaled, ofOption, pure_bind, if_pos hdiv]
          rfl
        · rfl

theorem denoted_concat_none {line : List UInt8} {c : UInt8} (hc : decimal c = none) :
    denoted 10 decimal (line ++ [c]) = none := by
  have hmap : (line ++ [c]).mapM decimal = none := by
    rw [List.mapM_append, List.mapM_cons, hc]
    cases line.mapM decimal <;> rfl
  rw [denoted, hmap]
  split <;> rfl

theorem quantity_concat (unit : UInt8 → Option ℕ) (line : List UInt8) (c : UInt8) : quantity unit (line ++ [c]) =
    match unit c with
    | some scale => (denoted 10 decimal line).map (· * scale)
    | none => denoted 10 decimal (line ++ [c]) := by
  rw [quantity, List.getLast?_concat, List.dropLast_concat]

theorem quantity_iff {unit : UInt8 → Option ℕ} (hunit : ∀ c scale, unit c = some scale → decimal c = none)
    (line : List UInt8) (n : ℕ) : quantity unit line = some n ↔ Quantity unit line n := by
  constructor
  · intro h
    rcases List.eq_nil_or_concat line with rfl | ⟨digits, c, rfl⟩
    · cases h
    · rw [List.concat_eq_append] at h ⊢
      rw [quantity_concat] at h
      cases hc : unit c with
      | none =>
          rw [hc] at h
          exact .plain h
      | some scale =>
          rw [hc] at h
          obtain ⟨k, hk, rfl⟩ := Option.map_eq_some_iff.mp h
          exact .scaled hk hc
  · intro h
    cases h with
    | plain hline =>
        rcases List.eq_nil_or_concat line with rfl | ⟨digits, c, rfl⟩
        · cases hline
        · rw [List.concat_eq_append] at hline ⊢
          rw [quantity_concat]
          cases hc : unit c with
          | none => exact hline
          | some scale =>
              rw [denoted_concat_none (hunit c scale hc)] at hline
              cases hline
    | scaled hline hc =>
        rw [quantity_concat, hc]
        exact congrArg (Option.map _) hline

theorem Exact.congr {read : List UInt8 → Checked NgxInt ℤ} {denotes denotes' : List UInt8 → ℕ → Prop} {max : ℤ}
    (h : Exact read denotes max) (heq : ∀ line n, denotes line n ↔ denotes' line n) : Exact read denotes' max := by
  have : denotes = denotes' := by
    funext line n
    exact propext (heq line n)
  exact this ▸ h

theorem sizeUnit_none (c : UInt8) : (sizeUnit c).isSome → decimal c = none := by
  revert c
  apply forall_byte
  decide +kernel

theorem offsetUnit_none (c : UInt8) : (offsetUnit c).isSome → decimal c = none := by
  revert c
  apply forall_byte
  decide +kernel

/-- A number in front of a unit, or a number without one. -/
theorem scaled_read (line : List UInt8) {scale : ℕ} (hscale : 0 < scale) :
    scaled (if line.isEmpty then throw (.returned .error) else atoiLoop 9223372036854775807 line 0)
        (9223372036854775807 / scale) scale =
      ofOption (((denoted 10 decimal line).map (· * scale)).bind (atMost 9223372036854775807)) := by
  rw [decimal_read]
  exact @scaled_eq _ 9223372036854775807 _ (by decide) hscale

theorem scaled_read_one (line : List UInt8) :
    scaled (if line.isEmpty then throw (.returned .error) else atoiLoop 9223372036854775807 line 0)
        9223372036854775807 1 =
      ofOption ((denoted 10 decimal line).bind (atMost 9223372036854775807)) := by
  have h := @scaled_read line 1 (by decide)
  simpa using h

theorem ngxParseSize_eq (line : List UInt8) :
    ngxParseSize line = ofOption ((quantity sizeUnit line).bind (atMost 9223372036854775807)) := by
  rw [ngxParseSize, quantity]
  cases line.getLast? with
  | none => rfl
  | some c =>
      simp only [sizeUnit]
      split
      · exact scaled_read _ (by decide)
      · split
        · exact scaled_read _ (by decide)
        · exact scaled_read_one _

theorem ngxParseOffset_eq (line : List UInt8) :
    ngxParseOffset line = ofOption ((quantity offsetUnit line).bind (atMost 9223372036854775807)) := by
  rw [ngxParseOffset, quantity]
  cases line.getLast? with
  | none => rfl
  | some c =>
      simp only [offsetUnit]
      split
      · exact scaled_read _ (by decide)
      · split
        · exact scaled_read _ (by decide)
        · split
          · exact scaled_read _ (by decide)
          · exact scaled_read_one _

theorem ngxParseSize_exact : Exact ngxParseSize (Quantity sizeUnit) maxSizeT :=
  (exact_of_eq ngxParseSize_eq).congr (quantity_iff fun c _ h => sizeUnit_none c (Option.isSome_of_mem h))

theorem ngxParseOffset_exact : Exact ngxParseOffset (Quantity offsetUnit) maxOffT :=
  (exact_of_eq ngxParseOffset_eq).congr (quantity_iff fun c _ h => offsetUnit_none c (Option.isSome_of_mem h))

end NginxDtls.Numbers
