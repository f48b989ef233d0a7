import Mathlib.Tactic

/-! `ngx_vslprintf`, without its floating-point conversion. Every write is at `buf`, which only grows, so that what was
written is a string and `buf` its length. -/

namespace NginxDtls.Sprintf

/-- `last`, or no end of the buffer. -/
abbrev Last := Option ℕ

/-- `buf < last` -/
def below (last : Last) (out : List UInt8) : Bool :=
  match last with
  | none => true
  | some k => out.length < k

/-- `buf < last - 1` -/
def belowPair (last : Last) (out : List UInt8) : Bool :=
  match last with
  | none => true
  | some k => out.length + 1 < k

/-- `last - buf` as a `size_t`. -/
def sizeDiff (last buf : ℕ) : ℕ := if buf ≤ last then last - buf else 2 ^ 64 - (buf - last)

/-- An argument: a word, a pointer to bytes, or a pointer to a string or to the value of a variable. A pointer is the
memory from it on. -/
inductive Arg where
  | word (w : UInt64)
  | ptr (mem : List UInt8)
  | str (mem : List UInt8) (len : UInt64)
  | value (mem : List UInt8) (len : UInt64)

/-- `ngx_cpymem`; the second component is whether all that was read is there. -/
def ngxCpymem (out src : List UInt8) (len : ℕ) : List UInt8 × Bool := (out ++ src.take len, len ≤ src.length)

/-! ### Numbers -/

/-- `do { *--p = ui64 % 10 + '0' } while (ui64 /= 10)` -/
def decimalLoop (ui64 : ℕ) (p : List UInt8) : List UInt8 :=
  let p := UInt8.ofNat (ui64 % 10 + 48) :: p
  if ui64 / 10 = 0 then p else decimalLoop (ui64 / 10) p
termination_by ui64
decreasing_by omega

/-- `hex` or `HEX` -/
def hexDigits (hexadecimal : ℕ) : ByteArray :=
  if hexadecimal = 1 then "0123456789abcdef".toUTF8 else "0123456789ABCDEF".toUTF8

def hexChar (hexadecimal v : ℕ) : UInt8 := (hexDigits hexadecimal).data.getD v 0

/-- `do { *--p = hex[ui64 & 0xf] } while (ui64 >>= 4)` -/
def hexLoop (hexadecimal ui64 : ℕ) (p : List UInt8) : List UInt8 :=
  let p := hexChar hexadecimal (ui64 % 16) :: p
  if ui64 / 16 = 0 then p else hexLoop hexadecimal (ui64 / 16) p
termination_by ui64
decreasing_by omega

/-- `while (len++ < width && buf < last)`, with what is missing to the width. -/
def padLoop (last : Last) (zero : UInt8) : ℕ → List UInt8 → List UInt8
  | 0, out => out
  | missing + 1, out => if below last out then padLoop last zero missing (out ++ [zero]) else out

/-- `if (buf + len > last) len = last - buf`, and the copy. -/
def copyNum (last : Last) (out p : List UInt8) : List UInt8 × Bool :=
  match last with
  | none => ngxCpymem out p p.length
  | some k => ngxCpymem out p (if out.length + p.length > k then sizeDiff k out.length else p.length)

def ngxSprintfNum (last : Last) (out : List UInt8) (ui64 : ℕ) (zero : UInt8) (hexadecimal width : ℕ) :
    List UInt8 × Bool :=
  let p := if hexadecimal = 0 then decimalLoop ui64 [] else hexLoop hexadecimal ui64 []
  copyNum last (padLoop last zero (width - p.length) out) p

/-! ### Strings -/

/-- `while (*src && buf < last)` -/
def copyString (last : Last) : List UInt8 → List UInt8 → List UInt8 × Bool
  | [], out => (out, false)
  | c :: src, out => if c ≠ 0 ∧ below last out then copyString last src (out ++ [c]) else (out, true)

/-- `while (*src && buf < last - 1)` -/
def hexString (hexadecimal : ℕ) (last : Last) : List UInt8 → List UInt8 → List UInt8 × Bool
  | [], out => (out, false)
  | c :: src, out =>
    if c ≠ 0 ∧ belowPair last out then
      hexString hexadecimal last src
        (out ++ [hexChar hexadecimal (c >>> 4).toNat, hexChar hexadecimal (c &&& 0xf).toNat])
    else (out, true)

/-- `while (len-- && buf < last - 1)` -/
def hexBytes (hexadecimal : ℕ) (last : Last) : ℕ → List UInt8 → List UInt8 → List UInt8 × Bool
  | 0, _, out => (out, true)
  | _ + 1, [], out => (out, !belowPair last out)
  | len + 1, c :: src, out =>
    if belowPair last out then
      hexBytes hexadecimal last len src
        (out ++ [hexChar hexadecimal (c >>> 4).toNat, hexChar hexadecimal (c &&& 0xf).toNat])
    else (out, true)

/-- `len = ngx_min((size_t) (last - buf), len)`, and the copy. -/
def copyLen (last : Last) (out src : List UInt8) (len : ℕ) : List UInt8 × Bool :=
  match last with
  | none => ngxCpymem out src len
  | some k => ngxCpymem out src (min (sizeDiff k out.length) len)

def ngxSprintfStr (last : Last) (out src : List UInt8) (len hexadecimal : ℕ) : List UInt8 × Bool :=
  if hexadecimal = 0 then
    if len = 2 ^ 64 - 1 then copyString last src out else copyLen last out src len
  else if len = 2 ^ 64 - 1 then hexString hexadecimal last src out
  else hexBytes hexadecimal last len src out

/-! ### Conversions -/

/-- What stands behind `%`: the flags, and the character of the conversion. -/
structure Spec where
  zero : UInt8
  width : ℕ
  sign : Bool
  hex : ℕ
  maxWidth : Bool
  stars : ℕ
  conv : UInt8

def isDigit (c : UInt8) : Bool := 48 ≤ c ∧ c ≤ 57

/-- The loops over the digits of a width. -/
def parseWidth : List UInt8 → ℕ → ℕ × List UInt8
  | [], width => (width, [])
  | c :: fmt, width =>
    if isDigit c then parseWidth fmt ((width * 10 + (c.toNat - 48)) % 2 ^ 64) else (width, c :: fmt)

/-- The loop over `u`, `m`, `X`, `x` and `*`, which ends behind `.` and its digits. The arguments of `*` are counted
here and taken by `popStars`. -/
def parseFlags : List UInt8 → Spec → Spec × List UInt8
  | [], spec => (spec, [])
  | c :: fmt, spec =>
    if c = 117 then parseFlags fmt { spec with sign := false }
    else if c = 109 then parseFlags fmt { spec with maxWidth := true }
    else if c = 88 then parseFlags fmt { spec with hex := 2, sign := false }
    else if c = 120 then parseFlags fmt { spec with hex := 1, sign := false }
    else if c = 46 then (spec, (parseWidth fmt 0).2)
    else if c = 42 then parseFlags fmt { spec with stars := spec.stars + 1 }
    else (spec, c :: fmt)

/-- The conversion behind `%`, and the format behind it; `none` is the end of the memory of the format. -/
def parseSpec (fmt : List UInt8) : Option (Spec × List UInt8) :=
  let zero := if fmt.head? = some 48 then 48 else 32
  let width := parseWidth fmt 0
  let flags := parseFlags width.2 ⟨zero, width.1, true, 0, false, 0, 0⟩
  match flags.2 with
  | [] => none
  | conv :: rest => some ({ flags.1 with conv := conv }, rest)

/-- The value of an argument of 64 bits, and of one of 32 bits. -/
def value64 (sign : Bool) (w : UInt64) : ℤ := if sign then w.toBitVec.toInt else w.toNat

def value32 (sign : Bool) (w : UInt64) : ℤ := if sign then (w.toBitVec.setWidth 32).toInt else w.toUInt32.toNat

/-- The conversions of numbers: the value, and the flags that they change. -/
def number (spec : Spec) (w : UInt64) : Option (ℤ × Spec) :=
  if spec.conv = 79 ∨ spec.conv = 84 ∨ spec.conv = 114 then some (value64 true w, spec)
  else if spec.conv = 80 then some (value32 true w, spec)
  else if spec.conv = 77 then some (if w.toBitVec.toInt = -1 then -1 else w.toNat, spec)
  else if spec.conv = 122 ∨ spec.conv = 108 ∨ spec.conv = 76 then some (value64 spec.sign w, spec)
  else if spec.conv = 105 ∨ spec.conv = 65 then
    some (value64 spec.sign w, if spec.maxWidth then { spec with width := 20 } else spec)
  else if spec.conv = 100 ∨ spec.conv = 68 then some (value32 spec.sign w, spec)
  else if spec.conv = 112 then some (w.toNat, { spec with hex := 2, zero := 48, width := 16 })
  else none

/-- What a conversion writes: a string, a number with its sign, or a character. -/
inductive Task where
  | str (src : List UInt8) (len hexadecimal : ℕ)
  | num (v : ℤ) (spec : Spec)
  | char (c : UInt8)

/-- `va_arg(args, ngx_str_t *)`, `va_arg(args, ngx_variable_value_t *)`, `va_arg(args, u_char *)` and `va_arg` of a
word; `none` is an argument that is not there or of another type. -/
def popStr : List Arg → Option (List UInt8 × UInt64 × List Arg)
  | .str mem len :: args => some (mem, len, args)
  | _ => none

def popValue : List Arg → Option (List UInt8 × UInt64 × List Arg)
  | .value mem len :: args => some (mem, len, args)
  | _ => none

def popPtr : List Arg → Option (List UInt8 × List Arg)
  | .ptr mem :: args => some (mem, args)
  | _ => none

def popWord : List Arg → Option (UInt64 × List Arg)
  | .word w :: args => some (w, args)
  | _ => none

/-- `slen`, the last of the arguments of `*`. -/
def popStars : ℕ → UInt64 → List Arg → Option (UInt64 × List Arg)
  | 0, slen, args => some (slen, args)
  | stars + 1, _, args => (popWord args).bind fun (w, args) => popStars stars w args

/-- The switch over the conversion: what it writes, and the arguments that are left. The floating-point conversion is
left out. -/
def conversion (spec : Spec) (slen : UInt64) (args : List Arg) : Option (Task × List Arg) :=
  if spec.conv = 86 then (popStr args).map fun (mem, len, args) => (.str mem len.toNat spec.hex, args)
  else if spec.conv = 118 then (popValue args).map fun (mem, len, args) => (.str mem len.toNat spec.hex, args)
  else if spec.conv = 115 then (popPtr args).map fun (mem, args) => (.str mem slen.toNat spec.hex, args)
  else if spec.conv = 102 then none
  else if spec.conv = 99 then (popWord args).map fun (w, args) => (.char w.toUInt8, args)
  else if spec.conv = 90 then some (.char 0, args)
  else if spec.conv = 78 then some (.char 10, args)
  else if spec.conv ∈ ([79, 84, 114, 80, 77, 122, 108, 76, 105, 65, 100, 68, 112] : List UInt8) then
    (popWord args).bind fun (w, args) => (number spec w).map fun (v, spec) => (.num v spec, args)
  else some (.char spec.conv, args)

def Task.write (last : Last) (out : List UInt8) : Task → List UInt8 × Bool
  | .str src len hexadecimal => ngxSprintfStr last out src len hexadecimal
  | .num v spec =>
    ngxSprintfNum last (if v < 0 then out ++ [45] else out) v.natAbs spec.zero spec.hex spec.width
  | .char c => (out ++ [c], true)

/-- A conversion: what was written, and the arguments that are left, if nothing was undefined. -/
def convert (last : Last) (spec : Spec) (out : List UInt8) (args : List Arg) : List UInt8 × Option (List Arg) :=
  match (popStars spec.stars (-1) args).bind fun (slen, args) => conversion spec slen args with
  | none => (out, none)
  | some (task, args) => ((task.write last out).1, if (task.write last out).2 then some args else none)

/-- A conversion is one task, the same for every buffer, or it stops at something undefined. -/
theorem convert_cases (spec : Spec) (args : List Arg) :
    (∀ last out, convert last spec out args = (out, none)) ∨
      ∃ slen args' task left, conversion spec slen args' = some (task, left) ∧ ∀ last out,
        convert last spec out args = ((task.write last out).1, if (task.write last out).2 then some left else none) := by
  cases hpop : (popStars spec.stars (-1) args).bind fun (slen, args) => conversion spec slen args with
  | none => exact .inl fun last out => by rw [convert, hpop]
  | some result =>
      obtain ⟨task, left⟩ := result
      obtain ⟨⟨slen, args'⟩, -, hconversion⟩ := Option.bind_eq_some_iff.mp hpop
      exact .inr ⟨slen, args', task, left, hconversion, fun last out => by rw [convert, hpop]⟩

/-! ### The loop -/

theorem parseWidth_length (fmt : List UInt8) (width : ℕ) : (parseWidth fmt width).2.length ≤ fmt.length := by
  induction fmt generalizing width with
  | nil => exact Nat.le_refl _
  | cons c fmt ih =>
      rw [parseWidth]
      split
      · exact (ih _).trans (Nat.le_succ _)
      · exact Nat.le_refl _

theorem parseFlags_length (fmt : List UInt8) (spec : Spec) : (parseFlags fmt spec).2.length ≤ fmt.length := by
  induction fmt generalizing spec with
  | nil => exact Nat.le_refl _
  | cons c fmt ih =>
      rw [parseFlags]
      split_ifs
      · exact (ih _).trans (Nat.le_succ _)
      · exact (ih _).trans (Nat.le_succ _)
      · exact (ih _).trans (Nat.le_succ _)
      · exact (ih _).trans (Nat.le_succ _)
      · exact (parseWidth_length fmt 0).trans (Nat.le_succ _)
      · exact (ih _).trans (Nat.le_succ _)
      · exact Nat.le_refl _

theorem parseSpec_length {fmt rest : List UInt8} {spec : Spec} (h : parseSpec fmt = some (spec, rest)) :
    rest.length < fmt.length := by
  have hflags := (parseFlags_length (parseWidth fmt 0).2
    ⟨if fmt.head? = some 48 then 48 else 32, (parseWidth fmt 0).1, true, 0, false, 0, 0⟩).trans (parseWidth_length fmt 0)
  rw [parseSpec] at h
  generalize parseFlags (parseWidth fmt 0).2
    ⟨if fmt.head? = some 48 then 48 else 32, (parseWidth fmt 0).1, true, 0, false, 0, 0⟩ = flags at h hflags
  obtain ⟨flags, left⟩ := flags
  cases left with
  | nil => exact absurd h (by simp)
  | cons conv left =>
      obtain ⟨-, rfl⟩ := Prod.mk.inj (Option.some.inj h)
      exact Nat.lt_of_succ_le hflags

/-- The loop at `fmt`, the memory from `fmt` on: what was written, and whether it returns before anything undefined. -/
def vslprintfLoop (last : Last) (fmt : List UInt8) (args : List Arg) (out : List UInt8) : List UInt8 × Bool :=
  match fmt with
  | [] => (out, false)
  | c :: fmt =>
    if c ≠ 0 ∧ below last out then
      if c = 37 then
        match _h : parseSpec fmt with
        | none => (out, false)
        | some (spec, rest) =>
          let r := convert last spec out args
          match r.2 with
          | none => (r.1, false)
          | some args => vslprintfLoop last rest args r.1
      else vslprintfLoop last fmt args (out ++ [c])
    else (out, true)
termination_by fmt.length
decreasing_by
  · exact (parseSpec_length (by assumption)).trans (Nat.lt_succ_self _)
  · exact Nat.lt_succ_self _

def ngxVslprintf (last : Last) (fmt : List UInt8) (args : List Arg) : List UInt8 × Bool := vslprintfLoop last fmt args []

theorem vslprintfLoop_percent {last : Last} {fmt out : List UInt8} {args : List Arg} (hbelow : below last out = true) :
    vslprintfLoop last (37 :: fmt) args out =
      match parseSpec fmt with
      | none => (out, false)
      | some (spec, rest) =>
        match (convert last spec out args).2 with
        | none => ((convert last spec out args).1, false)
        | some args' => vslprintfLoop last rest args' (convert last spec out args).1 := by
  rw [vslprintfLoop, if_pos ⟨by decide, hbelow⟩, if_pos rfl]
  split
  · rename_i h
    rw [h]
  · rename_i h
    rw [h]

theorem vslprintfLoop_plain {last : Last} {fmt out : List UInt8} {args : List Arg} {c : UInt8} (hzero : c ≠ 0)
    (hpercent : c ≠ 37) (hbelow : below last out = true) :
    vslprintfLoop last (c :: fmt) args out = vslprintfLoop last fmt args (out ++ [c]) := by
  rw [vslprintfLoop, if_pos ⟨hzero, hbelow⟩, if_neg hpercent]

theorem vslprintfLoop_end {last : Last} {fmt out : List UInt8} {args : List Arg} {c : UInt8}
    (hend : c = 0 ∨ below last out = false) : vslprintfLoop last (c :: fmt) args out = (out, true) := by
  rw [vslprintfLoop, if_neg]
  rintro ⟨hzero, hbelow⟩
  rcases hend with rfl | hend
  · exact hzero rfl
  · rw [hend] at hbelow
    exact Bool.noConfusion hbelow

/-! ### What fits -/

/-- What was written is inside of the buffer. -/
def Fits (last : Last) (out : List UInt8) : Prop := ∀ k ∈ last, out.length ≤ k

/-- As much of a string as the buffer takes. -/
def limit (last : Last) (s : List UInt8) : List UInt8 :=
  match last with
  | none => s
  | some k => s.take k

theorem fits_limit (last : Last) (s : List UInt8) : Fits last (limit last s) := by
  rintro k rfl
  exact List.length_take_le k s

theorem limit_of_fits {last : Last} {s : List UInt8} (h : Fits last s) : limit last s = s := by
  cases last with
  | none => rfl
  | some k => exact List.take_of_length_le (h k rfl)

theorem limit_limit_append (last : Last) (s t : List UInt8) : limit last (limit last s ++ t) = limit last (s ++ t) := by
  cases last with
  | none => rfl
  | some k =>
      show (s.take k ++ t).take k = (s ++ t).take k
      rw [List.take_append, List.take_append, List.take_take, Nat.min_self, List.length_take]
      congr 2
      omega

theorem fits_of_below {last : Last} {out : List UInt8} (h : below last out = true) (c : UInt8) :
    Fits last (out ++ [c]) := by
  rintro k rfl
  have := of_decide_eq_true h
  rw [List.length_append, List.length_singleton]
  omega

theorem limit_of_full {last : Last} {out : List UInt8} (hfits : Fits last out) (h : below last out = false)
    (t : List UInt8) : limit last (out ++ t) = out := by
  cases last with
  | none => exact Bool.noConfusion h
  | some k =>
      have hk : out.length = k := le_antisymm (hfits k rfl) (Nat.not_lt.mp (of_decide_eq_false h))
      show (out ++ t).take k = out
      rw [← hk, List.take_left]

end NginxDtls.Sprintf
