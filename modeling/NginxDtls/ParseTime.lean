import NginxDtls.Numbers

/-! `ngx_parse_time`: numbers with units, from years down to milliseconds, that are added up. -/

namespace NginxDtls.ParseTime

open Checked Digits Numbers

/-- `step` -/
inductive Step where
  | start
  | year
  | month
  | week
  | day
  | hour
  | min
  | sec
  | msec
  | last
  deriving DecidableEq, Repr

def Step.number : Step → ℕ
  | .start => 0
  | .year => 1
  | .month => 2
  | .week => 3
  | .day => 4
  | .hour => 5
  | .min => 6
  | .sec => 7
  | .msec => 8
  | .last => 9

structure TimeState where
  value : ℤ
  total : ℤ
  valid : Bool
  step : Step

/-- What a unit sets. -/
structure Scale where
  step : Step
  max : ℤ
  scale : ℤ

/-- `if (c) { return NGX_ERROR; }` -/
def errorIf (c : Prop) [Decidable c] : Checked NgxInt Unit := if c then throw (.returned .error) else pure ()

/-- A unit, if it does not come too late. -/
def unitScale (late : Prop) [Decidable late] (step : Step) (scale : ℤ) : Checked NgxInt Scale := do
  errorIf late
  pure ⟨step, maxIntT / scale, scale⟩

/-- The switch over the unit `c`; `ms` says that it is the first of the two letters. -/
def timeUnit (isSec : Bool) (step : Step) (c : UInt8) (ms : Bool) : Checked NgxInt Scale :=
  if c = 121 then unitScale (step.number > Step.start.number) .year (60 * 60 * 24 * 365)
  else if c = 77 then unitScale (step.number ≥ Step.month.number) .month (60 * 60 * 24 * 30)
  else if c = 119 then unitScale (step.number ≥ Step.week.number) .week (60 * 60 * 24 * 7)
  else if c = 100 then unitScale (step.number ≥ Step.day.number) .day (60 * 60 * 24)
  else if c = 104 then unitScale (step.number ≥ Step.hour.number) .hour (60 * 60)
  else if c = 109 then
    if ms then unitScale (isSec ∨ step.number ≥ Step.msec.number) .msec 1
    else unitScale (step.number ≥ Step.min.number) .min 60
  else if c = 115 then unitScale (step.number ≥ Step.sec.number) .sec 1
  else if c = 32 then unitScale (step.number ≥ Step.sec.number) .last 1
  else throw (.returned .error)

/-- Milliseconds of the unit, if it is not in milliseconds itself. -/
def millis (isSec : Bool) (u : Scale) : Checked NgxInt Scale :=
  if u.step ≠ .msec ∧ ¬isSec then do
    let scale ← signed (u.scale * 1000)
    pure { u with scale := scale, max := u.max / 1000 }
  else pure u

def addTotal (total value : ℤ) : Checked NgxInt ℤ := do
  let room ← signed (maxIntT - value)
  errorIf (total > room)
  signed (total + value)

/-- The value in front of a unit is added. -/
def addUnit (isSec : Bool) (st : TimeState) (u : Scale) : Checked NgxInt TimeState := do
  let u ← millis isSec u
  errorIf (st.value > u.max)
  let value ← signed (st.value * u.scale)
  let total ← addTotal st.total value
  pure { st with value := 0, total := total, step := u.step }

/-- What is behind a unit and the spaces after it. -/
def behindUnit (ms : Bool) (p : List UInt8) : List UInt8 := (if ms then p.tail else p).dropWhile (· = 32)

theorem behindUnit_length (ms : Bool) (p : List UInt8) : (behindUnit ms p).length ≤ p.length := by
  refine (List.dropWhile_sublist _).length_le.trans ?_
  split
  · exact (List.tail_sublist p).length_le
  · exact Nat.le_refl _

/-- The loop, at `c :: p`. -/
def timeLoop (isSec : Bool) : List UInt8 → TimeState → Checked NgxInt TimeState
  | [], st => pure st
  | c :: p, st =>
    if c ≥ 48 ∧ c ≤ 57 then
      if st.value ≥ maxIntT / 10 ∧ (st.value > maxIntT / 10 ∨ (c.toNat - 48 : ℤ) > maxIntT % 10) then
        throw (.returned .error)
      else do
        let shifted ← signed (st.value * 10)
        let value ← signed (shifted + (c.toNat - 48))
        timeLoop isSec p { st with value := value, valid := true }
    else do
      let ms := c = 109 ∧ p.head? = some 115
      let u ← timeUnit isSec st.step c ms
      let st ← addUnit isSec st u
      timeLoop isSec (behindUnit ms p) st
termination_by p => p.length
decreasing_by
  · exact Nat.lt_succ_self _
  · exact Nat.lt_succ_of_le (behindUnit_length _ _)

/-- The value that has no unit behind it. -/
def lastValue (isSec : Bool) (value : ℤ) : Checked NgxInt ℤ :=
  if ¬isSec then do
    errorIf (value > maxIntT / 1000)
    signed (value * 1000)
  else pure value

def timeFinish (isSec : Bool) (st : TimeState) : Checked NgxInt ℤ := do
  errorIf (¬st.valid)
  let value ← lastValue isSec st.value
  addTotal st.total value

def ngxParseTime (line : List UInt8) (isSec : Bool) : Checked NgxInt ℤ := do
  let st ← timeLoop isSec line ⟨0, 0, false, if isSec then .start else .month⟩
  timeFinish isSec st

/-! ### No operation overflows -/

/-- Both numbers are within the type. -/
structure TimeState.Bounded (st : TimeState) : Prop where
  value : 0 ≤ st.value ∧ st.value ≤ maxIntT
  total : 0 ≤ st.total ∧ st.total ≤ maxIntT

theorem safe_signed {x : ℤ} (hlow : 0 ≤ x) (hhigh : x ≤ maxIntT) : Safe (signed x) fun y => y = x := by
  rw [maxIntT] at hhigh
  rw [signed, if_pos (by omega)]
  exact safe_pure rfl

theorem safe_errorIf (c : Prop) [Decidable c] : Safe (errorIf c) fun _ => ¬c :=
  safe_ite (fun _ => safe_return _) fun hc => safe_pure hc

/-- A scale with the bound that goes with it. -/
def Scale.Fits (limit : ℤ) (u : Scale) : Prop := 0 < u.scale ∧ u.scale ≤ limit ∧ u.max = maxIntT / u.scale

theorem safe_unitScale (late : Prop) [Decidable late] (step : Step) {scale limit : ℤ} (hpos : 0 < scale)
    (hle : scale ≤ limit) : Safe (unitScale late step scale) (Scale.Fits limit) :=
  safe_bind (safe_errorIf late) fun _ _ => safe_pure ⟨hpos, hle, rfl⟩

theorem safe_timeUnit (isSec : Bool) (step : Step) (c : UInt8) (ms : Bool) :
    Safe (timeUnit isSec step c ms) (Scale.Fits (60 * 60 * 24 * 365)) := by
  rw [timeUnit]
  repeat' apply safe_ite <;> intro _
  all_goals first | exact safe_return _ | (apply safe_unitScale <;> decide)

theorem safe_millis (isSec : Bool) {u : Scale} (hu : u.Fits (60 * 60 * 24 * 365)) :
    Safe (millis isSec u) (Scale.Fits (60 * 60 * 24 * 365 * 1000)) := by
  obtain ⟨hpos, hle, hmax⟩ := hu
  apply safe_ite
  · intro _
    refine safe_bind (safe_signed (by omega) (by rw [maxIntT]; omega)) ?_
    rintro _ rfl
    refine safe_pure ⟨by show 0 < u.scale * 1000; omega, by show u.scale * 1000 ≤ _; omega, ?_⟩
    show u.max / 1000 = maxIntT / (u.scale * 1000)
    rw [hmax, Int.ediv_ediv_of_nonneg hpos.le]
  · intro _
    exact safe_pure ⟨hpos, by omega, hmax⟩

theorem safe_addTotal {total value : ℤ} (htotal : 0 ≤ total) (hvalue : 0 ≤ value) (hle : value ≤ maxIntT) :
    Safe (addTotal total value) fun sum => 0 ≤ sum ∧ sum ≤ maxIntT := by
  refine safe_bind (safe_signed (by omega) (by omega)) ?_
  rintro _ rfl
  refine safe_bind (safe_errorIf _) fun _ hroom => ?_
  refine (safe_signed (by omega) (by omega)).mono ?_
  rintro _ rfl
  omega

/-- What is below the rounded maximum is not above the maximum when it is scaled. -/
theorem scaled_le {value max scale limit : ℤ} (hpos : 0 < scale) (hmax : max = limit / scale) :
    value ≤ max ↔ value * scale ≤ limit := by
  rw [hmax]
  exact Int.le_ediv_iff_mul_le hpos

theorem safe_addUnit (isSec : Bool) {st : TimeState} {u : Scale} (hst : st.Bounded)
    (hu : u.Fits (60 * 60 * 24 * 365)) : Safe (addUnit isSec st u) TimeState.Bounded := by
  refine safe_bind (safe_millis isSec hu) fun u ⟨hpos, _, hmax⟩ => ?_
  refine safe_bind (safe_errorIf _) fun _ hle => ?_
  have hvalue := (scaled_le hpos hmax).mp (Int.not_lt.mp hle)
  have hnonneg := Int.mul_nonneg hst.value.1 hpos.le
  refine safe_bind (safe_signed hnonneg hvalue) ?_
  rintro _ rfl
  refine safe_bind (safe_addTotal hst.total.1 hnonneg hvalue) fun total htotal => ?_
  exact safe_pure ⟨⟨Int.le_refl 0, (by decide : (0 : ℤ) ≤ maxIntT)⟩, htotal⟩

/-- A digit behind a number that the test lets pass. -/
theorem digit_bound {value : ℤ} {c : UInt8} (hnonneg : 0 ≤ value) (hc : c ≥ 48 ∧ c ≤ 57)
    (hcut : ¬(value ≥ maxIntT / 10 ∧ (value > maxIntT / 10 ∨ (c.toNat - 48 : ℤ) > maxIntT % 10))) :
    0 ≤ value * 10 ∧ value * 10 ≤ maxIntT ∧ 0 ≤ value * 10 + (c.toNat - 48) ∧
      value * 10 + (c.toNat - 48) ≤ maxIntT := by
  simp only [ge_iff_le, UInt8.le_iff_toNat_le, UInt8.reduceToNat] at hc
  rw [maxIntT] at hcut ⊢
  omega

theorem safe_timeLoop (isSec : Bool) (p : List UInt8) {st : TimeState} (hst : st.Bounded) :
    Safe (timeLoop isSec p st) TimeState.Bounded := by
  induction hn : p.length using Nat.strong_induction_on generalizing p st with
  | _ n ih =>
      cases p with
      | nil =>
          rw [timeLoop]
          exact safe_pure hst
      | cons c p =>
          rw [timeLoop]
          rw [List.length_cons] at hn
          refine safe_ite (fun hdigit => safe_ite (fun _ => safe_return _) fun hcut => ?_) fun _ => ?_
          · obtain ⟨hshift, hshift', hadd, hadd'⟩ := digit_bound hst.value.1 hdigit hcut
            refine safe_bind (safe_signed hshift hshift') ?_
            rintro _ rfl
            refine safe_bind (safe_signed hadd hadd') ?_
            rintro _ rfl
            exact ih p.length (by omega) p ⟨⟨hadd, hadd'⟩, hst.total⟩ rfl
          · refine safe_bind (safe_timeUnit _ _ _ _) fun u hu => ?_
            refine safe_bind (safe_addUnit isSec hst hu) fun st hst => ?_
            exact ih _ (hn ▸ Nat.lt_succ_of_le (behindUnit_length _ _)) _ hst rfl

theorem safe_timeFinish (isSec : Bool) {st : TimeState} (hst : st.Bounded) :
    Safe (timeFinish isSec st) fun _ => True := by
  refine safe_bind (safe_errorIf _) fun _ _ => ?_
  refine safe_bind (Q := fun value => 0 ≤ value ∧ value ≤ maxIntT) ?_ ?_
  · apply safe_ite
    · intro _
      refine safe_bind (safe_errorIf _) fun _ hle => ?_
      have hvalue := (scaled_le (by decide) rfl).mp (Int.not_lt.mp hle)
      have hnonneg := Int.mul_nonneg hst.value.1 (by decide : (0 : ℤ) ≤ 1000)
      refine (safe_signed hnonneg hvalue).mono ?_
      rintro _ rfl
      exact ⟨hnonneg, hvalue⟩
    · intro _
      exact safe_pure hst.value
  · intro value hvalue
    exact (safe_addTotal hst.total.1 hvalue.1 hvalue.2).mono fun _ _ => trivial

theorem ngxParseTime_safe (line : List UInt8) (isSec : Bool) : Safe (ngxParseTime line isSec) fun _ => True := by
  refine safe_bind (safe_timeLoop isSec line ?_) fun st hst => safe_timeFinish isSec hst
  have hmax : (0 : ℤ) ≤ maxIntT := by decide
  exact ⟨⟨Int.le_refl 0, hmax⟩, ⟨Int.le_refl 0, hmax⟩⟩

/-! ### Numbers with units -/

/-- The units, the largest first. -/
inductive TimeUnit where
  | year
  | month
  | week
  | day
  | hour
  | minute
  | second
  | millisecond
  deriving DecidableEq, Repr

namespace TimeUnit

/-- `y`, `M`, `w`, `d`, `h`, `m`, `s`, and the first letter of `ms`. -/
def letter : TimeUnit → UInt8
  | .year => 121
  | .month => 77
  | .week => 119
  | .day => 100
  | .hour => 104
  | .minute => 109
  | .second => 115
  | .millisecond => 109

/-- The `s` of `ms`. -/
def tail (u : TimeUnit) : List UInt8 := if u = .millisecond then [115] else []

def text (u : TimeUnit) : List UInt8 := u.letter :: u.tail

/-- The units of a time in seconds, and those of a time in milliseconds. -/
def Admitted (isSec : Bool) (u : TimeUnit) : Prop :=
  if isSec then u ≠ .millisecond else u ≠ .year ∧ u ≠ .month

/-- In seconds, where it has as much as one. -/
def seconds : TimeUnit → ℕ
  | .year => 365 * 24 * 60 * 60
  | .month => 30 * 24 * 60 * 60
  | .week => 7 * 24 * 60 * 60
  | .day => 24 * 60 * 60
  | .hour => 60 * 60
  | .minute => 60
  | .second => 1
  | .millisecond => 0

/-- In seconds, or in milliseconds. -/
def size (isSec : Bool) (u : TimeUnit) : ℕ :=
  if isSec then u.seconds else if u = .millisecond then 1 else u.seconds * 1000

/-- The step that the unit leads to. -/
def step : TimeUnit → Step
  | .year => .year
  | .month => .month
  | .week => .week
  | .day => .day
  | .hour => .hour
  | .minute => .min
  | .second => .sec
  | .millisecond => .msec

instance (isSec : Bool) (u : TimeUnit) : Decidable (u.Admitted isSec) := by
  unfold Admitted
  infer_instance

end TimeUnit

/-- Numbers with units, the units of the mode in strictly decreasing order. -/
structure Duration (isSec : Bool) where
  parts : List (List UInt8 × TimeUnit)
  ne_nil : parts ≠ []
  digits : ∀ part ∈ parts, part.1 ≠ [] ∧ ∀ c ∈ part.1, 48 ≤ c ∧ c ≤ 57
  admitted : ∀ part ∈ parts, part.2.Admitted isSec
  decreasing : parts.Pairwise fun part part' => part'.2.size isSec < part.2.size isSec

/-- The number of a digit string. -/
def digitsValue (digits : List UInt8) : ℕ := number 10 (digits.map fun c => c.toNat - 48)

def partsText (parts : List (List UInt8 × TimeUnit)) : List UInt8 := parts.flatMap fun part => part.1 ++ part.2.text

def partsValue (isSec : Bool) (parts : List (List UInt8 × TimeUnit)) : ℕ :=
  (parts.map fun part => digitsValue part.1 * part.2.size isSec).sum

def Duration.text {isSec : Bool} (d : Duration isSec) : List UInt8 := partsText d.parts

def Duration.value {isSec : Bool} (d : Duration isSec) : ℕ := partsValue isSec d.parts

/-! ### The sum is exact -/

theorem mapM_decimal {digits : List UInt8} (h : ∀ c ∈ digits, 48 ≤ c ∧ c ≤ 57) :
    digits.mapM Numbers.decimal = some (digits.map fun c => c.toNat - 48) := by
  induction digits with
  | nil => rfl
  | cons c digits ih =>
      rw [List.forall_mem_cons] at h
      rw [List.mapM_cons, ih h.2, Numbers.decimal, if_pos h.1]
      rfl

theorem maxIntT_eq : maxIntT = ((9223372036854775807 : ℕ) : ℤ) := rfl

/-- The loop over digits is the reader of digits. -/
theorem timeLoop_digits (isSec : Bool) {digits : List UInt8} (hdigits : ∀ c ∈ digits, 48 ≤ c ∧ c ≤ 57)
    (rest : List UInt8) (st : TimeState) {v : ℕ} (hst : st.value = v) :
    timeLoop isSec (digits ++ rest) st =
      match scan 10 9223372036854775807 Numbers.decimal digits v with
      | none => throw (.returned .error)
      | some n => timeLoop isSec rest { st with value := n, valid := st.valid || !digits.isEmpty } := by
  induction digits generalizing st v with
  | nil =>
      have hsame : { st with value := (v : ℤ), valid := st.valid || !([] : List UInt8).isEmpty } = st := by
        rw [← hst]
        simp
      show timeLoop isSec rest st = timeLoop isSec rest _
      rw [hsame]
  | cons c digits ih =>
      rw [List.forall_mem_cons] at hdigits
      obtain ⟨d, hd⟩ : ∃ d, Numbers.decimal c = some d := ⟨_, if_pos hdigits.1⟩
      obtain ⟨-, hcd, hd9⟩ := decimal_eq hd
      have hdigit : ((c.toNat : ℤ) - 48) = d := by omega
      have hcut := @cut_iff 9223372036854775807 v d hd9
      rw [List.cons_append, timeLoop, if_pos hdigits.1, scan, hd, Option.bind_some, hst, hdigit, maxIntT_eq]
      by_cases hle : v * 10 + d ≤ 9223372036854775807
      · obtain ⟨hshift, hadd⟩ := signed_digit (hle.trans_lt (by decide))
        rw [Nat.cast_ofNat] at hshift
        rw [if_neg (fun h => hcut.mp h hle), hshift, pure_bind, hadd, pure_bind, ih hdigits.2 _ rfl, atMost, if_pos hle,
          Option.bind_some]
        simp
      · rw [if_pos (hcut.mpr hle), atMost, if_neg hle, Option.bind_none]

/-- What the switch sets for a unit that is not late. -/
def TimeUnit.scale (u : TimeUnit) : ℤ := if u = .millisecond then 1 else u.seconds

theorem unitScale_pure {late : Prop} [Decidable late] (h : ¬late) (step : Step) (scale : ℤ) :
    unitScale late step scale = pure ⟨step, maxIntT / scale, scale⟩ := by
  rw [unitScale, errorIf, if_neg h, pure_bind]

theorem timeUnit_eq {isSec : Bool} {u : TimeUnit} (hu : u.Admitted isSec) {st : Step} (hstep : st.number < u.step.number) :
    timeUnit isSec st u.letter (u = .millisecond) = pure ⟨u.step, maxIntT / u.scale, u.scale⟩ := by
  cases u with
  | year => exact unitScale_pure (Nat.not_lt.mpr (Nat.le_of_lt_succ hstep)) _ _
  | millisecond =>
      refine unitScale_pure ?_ _ _
      rintro (hsec | hlate)
      · rw [TimeUnit.Admitted, if_pos hsec] at hu
        exact hu rfl
      · exact absurd hstep (Nat.not_lt.mpr hlate)
  | _ => exact unitScale_pure (Nat.not_le.mpr hstep) _ _

theorem letter_not_digit (u : TimeUnit) : ¬(u.letter ≥ 48 ∧ u.letter ≤ 57) := by
  cases u <;> decide

theorem timeLoop_unit {isSec : Bool} {u : TimeUnit} (hu : u.Admitted isSec) {st : TimeState}
    (hstep : st.step.number < u.step.number) {rest : List UInt8} (hrest : ∀ c ∈ rest.head?, 48 ≤ c ∧ c ≤ 57) :
    timeLoop isSec (u.text ++ rest) st =
      addUnit isSec st ⟨u.step, maxIntT / u.scale, u.scale⟩ >>= timeLoop isSec rest := by
  have hdrop : rest.dropWhile (· = 32) = rest := by
    cases rest with
    | nil => rfl
    | cons c rest =>
        have hc := hrest c rfl
        have hspace : c ≠ 32 := by
          rintro rfl
          exact absurd hc (by decide)
        rw [List.dropWhile_cons_of_neg (by simpa using hspace)]
  have hletter : rest.head? ≠ some 115 := by
    intro h
    exact absurd (hrest 115 h) (by decide)
  have hms : decide (u.letter = 109 ∧ (u.tail ++ rest).head? = some 115) = decide (u = .millisecond) := by
    cases u <;> simp [TimeUnit.letter, TimeUnit.tail, hletter]
  have hbehind : behindUnit (decide (u = .millisecond)) (u.tail ++ rest) = rest := by
    rw [behindUnit, TimeUnit.tail]
    by_cases h : u = .millisecond
    · simpa [h] using hdrop
    · simpa [h] using hdrop
  rw [TimeUnit.text, List.cons_append, timeLoop, if_neg (letter_not_digit u)]
  simp only [hms, hbehind, timeUnit_eq hu hstep, pure_bind]

theorem addTotal_eq (t v : ℕ) (hv : v ≤ 9223372036854775807) : addTotal t v =
    if t + v ≤ 9223372036854775807 then pure ((t + v : ℕ) : ℤ) else throw (.returned .error) := by
  have hroom : signed (maxIntT - v) = pure (maxIntT - v) := by
    rw [signed, maxIntT, if_pos (by omega)]
  rw [addTotal, hroom, pure_bind, errorIf, maxIntT]
  by_cases hle : t + v ≤ 9223372036854775807
  · rw [if_pos hle, if_neg (by omega), pure_bind, ← signed_of_lt (by omega), Nat.cast_add]
  · rw [if_neg hle, if_pos (by omega)]
    rfl

/-- The scale of a unit is its size, and the maximum goes with it. -/
theorem millis_eq {isSec : Bool} {u : TimeUnit} (hu : u.Admitted isSec) : ∃ max : ℤ,
    millis isSec ⟨u.step, maxIntT / u.scale, u.scale⟩ = pure ⟨u.step, max, u.size isSec⟩ ∧
      (0 : ℤ) < u.size isSec ∧ max = maxIntT / u.size isSec := by
  cases isSec with
  | true =>
      refine ⟨maxIntT / u.scale, ?_⟩
      have hu : u ≠ .millisecond := hu
      have hsize : u.scale = u.size true := if_neg hu
      rw [hsize]
      refine ⟨if_neg (by simp), ?_, rfl⟩
      cases u <;> first | decide | exact absurd rfl hu
  | false =>
      by_cases hms : u = .millisecond
      · subst hms
        exact ⟨_, rfl, by decide, rfl⟩
      · have hscale : u.scale = u.seconds := if_neg hms
        have hsize : u.size false = u.seconds * 1000 := if_neg hms
        have hstep : u.step ≠ .msec ∧ ¬(false = true) := by
          cases u <;> first | exact ⟨by decide, by decide⟩ | exact absurd rfl hms
        have hpos : 0 < u.seconds ∧ u.seconds * 1000 < 2 ^ 63 := by
          cases u <;> first | decide | exact absurd rfl hms
        refine ⟨maxIntT / u.scale / 1000, ?_, by omega, ?_⟩
        · rw [millis, if_pos hstep, hscale, hsize]
          show (signed ((u.seconds : ℤ) * 1000) >>= _) = _
          have hsigned := signed_of_lt hpos.2
          rw [Nat.cast_mul, Nat.cast_ofNat] at hsigned
          rw [hsigned, Nat.cast_mul]
          rfl
        · rw [hscale, hsize, Nat.cast_mul, Nat.cast_ofNat, Int.ediv_ediv_of_nonneg (Int.natCast_nonneg _)]

theorem addUnit_eq {isSec : Bool} {u : TimeUnit} (hu : u.Admitted isSec) (st : TimeState) {v t : ℕ} (hv : st.value = v)
    (ht : st.total = t) : addUnit isSec st ⟨u.step, maxIntT / u.scale, u.scale⟩ =
      if t + v * u.size isSec ≤ 9223372036854775807 then
        pure { st with value := 0, total := (t + v * u.size isSec : ℕ), step := u.step }
      else throw (.returned .error) := by
  obtain ⟨max, hmillis, hpos, hmax⟩ := millis_eq hu
  have hiff := @scaled_le st.value max _ maxIntT hpos hmax
  rw [addUnit, hmillis, pure_bind, errorIf]
  by_cases hle : st.value ≤ max
  · have hvalue := hiff.mp hle
    rw [hv, ← Nat.cast_mul, maxIntT_eq, Nat.cast_le] at hvalue
    rw [if_neg (Int.not_lt.mpr hle), pure_bind]
    show (signed (st.value * u.size isSec) >>= _) = _
    rw [hv, ← Nat.cast_mul, signed_of_lt (hvalue.trans_lt (by decide)), pure_bind, ht, addTotal_eq t _ hvalue]
    split
    · rfl
    · rfl
  · have hvalue := hiff.not.mp hle
    rw [hv, ← Nat.cast_mul, maxIntT_eq, Nat.cast_le] at hvalue
    rw [if_pos (Int.not_le.mp hle), if_neg (by omega)]
    rfl

/-- A smaller unit comes later. -/
theorem step_lt_of_size_lt {isSec : Bool} {u u' : TimeUnit} (h : u'.size isSec < u.size isSec) :
    u.step.number < u'.step.number := by
  revert h
  cases isSec <;> cases u <;> cases u' <;> decide

theorem partsText_cons (part : List UInt8 × TimeUnit) (parts : List (List UInt8 × TimeUnit)) :
    partsText (part :: parts) = part.1 ++ (part.2.text ++ partsText parts) := by
  rw [partsText, List.flatMap_cons, List.append_assoc]
  rfl

theorem partsText_head {parts : List (List UInt8 × TimeUnit)}
    (h : ∀ part ∈ parts, part.1 ≠ [] ∧ ∀ c ∈ part.1, 48 ≤ c ∧ c ≤ 57) :
    ∀ c ∈ (partsText parts).head?, 48 ≤ c ∧ c ≤ 57 := by
  cases parts with
  | nil => exact fun c hc => absurd hc (by simp [partsText])
  | cons part parts =>
      intro c hc
      obtain ⟨hne, hdigits⟩ := h part List.mem_cons_self
      rw [partsText_cons, List.head?_append_of_ne_nil _ hne] at hc
      exact hdigits c (List.mem_of_mem_head? hc)

/-- The step from one unit to the next. -/
theorem timeLoop_part {isSec : Bool} {digits : List UInt8} {u : TimeUnit} (hne : digits ≠ [])
    (hdigits : ∀ c ∈ digits, 48 ≤ c ∧ c ≤ 57) (hu : u.Admitted isSec) {st : TimeState}
    (hstep : st.step.number < u.step.number) {rest : List UInt8} (hrest : ∀ c ∈ rest.head?, 48 ≤ c ∧ c ≤ 57) {t : ℕ}
    (hvalue : st.value = 0) (htotal : st.total = t) :
    timeLoop isSec (digits ++ (u.text ++ rest)) st =
      if t + digitsValue digits * u.size isSec ≤ 9223372036854775807 then
        timeLoop isSec rest ⟨0, (t + digitsValue digits * u.size isSec : ℕ), true, u.step⟩
      else throw (.returned .error) := by
  have hpos : 0 < u.size isSec := by
    have := millis_eq hu
    omega
  have hvalid : (st.valid || !digits.isEmpty) = true := by
    cases digits with
    | nil => exact absurd rfl hne
    | cons c digits => simp
  rw [@timeLoop_digits isSec _ hdigits _ st 0 hvalue, scan_eq (by decide) _ (Nat.zero_le _), mapM_decimal hdigits,
    Option.bind_some, Nat.zero_mul, Nat.zero_add]
  show (match atMost 9223372036854775807 (digitsValue digits) with | none => _ | some n => _) = _
  by_cases hle : digitsValue digits ≤ 9223372036854775807
  · rw [atMost, if_pos hle]
    show timeLoop isSec (u.text ++ rest) _ = _
    have hadd := addUnit_eq hu ⟨digitsValue digits, st.total, true, st.step⟩ rfl htotal
    rw [hvalid, @timeLoop_unit _ _ hu ⟨digitsValue digits, st.total, true, st.step⟩ hstep _ hrest, hadd]
    split
    · rw [pure_bind]
    · rfl
  · have habove : ¬t + digitsValue digits * u.size isSec ≤ 9223372036854775807 := by
      have := Nat.le_mul_of_pos_right (digitsValue digits) hpos
      omega
    rw [atMost, if_neg hle, if_neg habove]

theorem timeLoop_parts {isSec : Bool} {parts : List (List UInt8 × TimeUnit)}
    (hdigits : ∀ part ∈ parts, part.1 ≠ [] ∧ ∀ c ∈ part.1, 48 ≤ c ∧ c ≤ 57)
    (hadmitted : ∀ part ∈ parts, part.2.Admitted isSec)
    (hdecreasing : parts.Pairwise fun part part' => part'.2.size isSec < part.2.size isSec) {st : TimeState} {t : ℕ}
    (hstep : ∀ part ∈ parts, st.step.number < part.2.step.number) (hvalid : st.valid ∨ parts ≠ [])
    (hvalue : st.value = 0) (htotal : st.total = t) (hle : t ≤ 9223372036854775807) :
    (timeLoop isSec (partsText parts) st >>= timeFinish isSec) =
      if t + partsValue isSec parts ≤ 9223372036854775807 then pure ((t + partsValue isSec parts : ℕ) : ℤ)
      else throw (.returned .error) := by
  induction parts generalizing st t with
  | nil =>
      have hv : st.valid = true := hvalid.resolve_right (fun h => h rfl)
      have hlast : lastValue isSec 0 = pure 0 := by
        cases isSec <;> rfl
      show (timeLoop isSec [] st >>= timeFinish isSec) = if t ≤ 9223372036854775807 then pure ((t : ℕ) : ℤ) else _
      rw [timeLoop, pure_bind, timeFinish, errorIf, if_neg (not_not.mpr hv), pure_bind, hvalue, hlast, pure_bind, htotal]
      exact addTotal_eq t 0 (Nat.zero_le _)
  | cons part parts ih =>
      rw [List.forall_mem_cons] at hdigits hadmitted hstep
      rw [List.pairwise_cons] at hdecreasing
      have hsum : t + partsValue isSec (part :: parts) =
          t + digitsValue part.1 * part.2.size isSec + partsValue isSec parts := by
        rw [partsValue, List.map_cons, List.sum_cons, ← Nat.add_assoc]
        rfl
      rw [partsText_cons, timeLoop_part hdigits.1.1 hdigits.1.2 hadmitted.1 hstep.1 (partsText_head hdigits.2) hvalue htotal,
        hsum]
      by_cases hpart : t + digitsValue part.1 * part.2.size isSec ≤ 9223372036854775807
      · rw [if_pos hpart]
        exact ih hdigits.2 hadmitted.2 hdecreasing.2
          (fun part' hpart' => step_lt_of_size_lt (hdecreasing.1 part' hpart')) (.inl rfl) rfl rfl hpart
      · rw [if_neg hpart, if_neg (by omega)]
        rfl

/-- A time is read as the sum of its parts, or not at all. -/
theorem ngxParseTime_duration {isSec : Bool} (d : Duration isSec) : ngxParseTime d.text isSec =
    if (d.value : ℤ) ≤ maxIntT then .ok (d.value : ℤ) else .error (.returned .error) := by
  have hstep : ∀ part ∈ d.parts, (if isSec then Step.start else Step.month).number < part.2.step.number := by
    intro part hpart
    have hu := d.admitted part hpart
    revert hu
    generalize part.2 = u
    cases isSec <;> cases u <;> decide
  have h := @timeLoop_parts _ _ d.digits d.admitted d.decreasing ⟨0, 0, false, if isSec then .start else .month⟩ 0 hstep
    (.inr d.ne_nil) rfl rfl (Nat.zero_le _)
  rw [Nat.zero_add] at h
  rw [maxIntT_eq]
  simp only [Nat.cast_le]
  exact h

/-- `1h30m` is 5400 seconds. -/
example : ∃ d : Duration true, d.text = [49, 104, 51, 48, 109] ∧ d.value = 5400 :=
  ⟨⟨[([49], .hour), ([51, 48], .minute)], by decide, by simp, by decide, by simp [TimeUnit.size, TimeUnit.seconds]⟩, rfl,
    rfl⟩

/-- Every reader returns the number that the string denotes if its type has room for it, and `NGX_ERROR` otherwise; no
signed operation overflows on any string. -/
theorem numbers_exact :
    Exact Numbers.ngxAtoi (fun line n => denoted 10 Numbers.decimal line = some n) maxIntT ∧
      Exact ngxAtosz (fun line n => denoted 10 Numbers.decimal line = some n) maxSizeT ∧
      Exact ngxAtoof (fun line n => denoted 10 Numbers.decimal line = some n) maxOffT ∧
      Exact ngxAtotm (fun line n => denoted 10 Numbers.decimal line = some n) maxTimeT ∧
      Exact ngxHextoi (fun line n => denoted 16 hexadecimal line = some n) maxIntT ∧
      Exact ngxParseSize (Quantity sizeUnit) maxSizeT ∧
      Exact ngxParseOffset (Quantity offsetUnit) maxOffT ∧
      (∀ isSec (d : Duration isSec), ngxParseTime d.text isSec =
        if (d.value : ℤ) ≤ maxIntT then .ok (d.value : ℤ) else .error (.returned .error)) ∧
      ∀ isSec line, ngxParseTime line isSec ≠ .error .undefined := by
  refine ⟨ngxAtoi_exact, ngxAtosz_exact, ngxAtoof_exact, ngxAtotm_exact, ngxHextoi_exact, ngxParseSize_exact,
    ngxParseOffset_exact, fun isSec d => ngxParseTime_duration d, ?_⟩
  intro isSec line h
  have hsafe := ngxParseTime_safe line isSec
  rw [h] at hsafe
  exact hsafe

end NginxDtls.ParseTime
