import NginxDtls.Checked
import NginxDtls.InetGrammar

/-! Byte ranges: `ngx_http_range_parse`. A pointer into the header is what stands from it on, with the zero byte; a read
behind the zero byte and an overflow of `off_t` are undefined. -/

namespace NginxDtls.ByteRanges

open Checked

/-- What `ngx_http_range_parse` returns besides `NGX_OK`. -/
inductive RangeRc where
  | declined
  | notSatisfiable
  | error
  deriving DecidableEq, Repr

abbrev Parse (α : Type) : Type := Checked RangeRc α

/-! ### The parser -/

/-- `NGX_MAX_OFF_T_VALUE` -/
def ngxMaxOffTValue : ℤ := 2 ^ 63 - 1

/-- A value that is computed as an `off_t`. -/
def offT (x : ℤ) : Parse ℤ := if -(2 ^ 63) ≤ x ∧ x ≤ ngxMaxOffTValue then pure x else throw .undefined

def space : UInt8 := 32

def minus : UInt8 := 45

def comma : UInt8 := 44

/-- `*p` -/
def peek (p : List UInt8) : Parse UInt8 := peekAt p 0

/-- `while (*p == ' ') { p++; }` -/
def skipSpaces : List UInt8 → Parse (List UInt8)
  | [] => throw .undefined
  | c :: p => if c = space then skipSpaces p else pure (c :: p)

/-- A loop over digits, for `start` or for `end`. -/
def rangeDigits : List UInt8 → ℤ → Parse (List UInt8 × ℤ)
  | [], _ => throw .undefined
  | c :: p, value =>
    if IsDecimal c then
      if value ≥ ngxMaxOffTValue / 10 ∧
          (value > ngxMaxOffTValue / 10 ∨ ((c.toNat : ℤ) - 48) > ngxMaxOffTValue % 10) then
        throw (.returned .notSatisfiable)
      else do
        let tens ← offT (value * 10)
        let value ← offT (tens + ((c.toNat : ℤ) - 48))
        rangeDigits p value
    else pure (c :: p, value)

/-- `ngx_http_range_t` -/
structure Range where
  start : ℤ
  stop : ℤ
  deriving DecidableEq, Repr

/-- `start = (end < content_length) ? content_length - end : 0` -/
def suffixStart (contentLength stop : ℤ) : Parse ℤ :=
  if stop < contentLength then offT (contentLength - stop) else pure 0

/-- `end` behind the last byte, but not behind the body. -/
def endBehind (contentLength stop : ℤ) : Parse ℤ := if stop ≥ contentLength then pure contentLength else offT (stop + 1)

/-- From the digits of `end` to the label `found`. -/
def parseEnd (contentLength start : ℤ) (suffix : Bool) (p : List UInt8) : Parse (Range × List UInt8) := do
  let c ← peek p
  if ¬IsDecimal c then throw (.returned .notSatisfiable)
  else
    let (p, stop) ← rangeDigits p 0
    let p ← skipSpaces p
    let c ← peek p
    if c ≠ comma ∧ c ≠ 0 then throw (.returned .notSatisfiable)
    else if suffix then
      let start ← suffixStart contentLength stop
      let stop ← offT (contentLength - 1)
      let stop ← endBehind contentLength stop
      pure (⟨start, stop⟩, p)
    else
      let stop ← endBehind contentLength stop
      pure (⟨start, stop⟩, p)

/-- One range up to the label `found`, and what stands there. -/
def parseRange (contentLength : ℤ) (p : List UInt8) : Parse (Range × List UInt8) := do
  let p ← skipSpaces p
  let c ← peek p
  if c ≠ minus then
    if ¬IsDecimal c then throw (.returned .notSatisfiable)
    else
      let (p, start) ← rangeDigits p 0
      let p ← skipSpaces p
      let c ← peek p
      if c ≠ minus then throw (.returned .notSatisfiable)
      else
        let p ← skipSpaces p.tail
        let c ← peek p
        if c = comma ∨ c = 0 then pure (⟨start, contentLength⟩, p) else parseEnd contentLength start false p
  else parseEnd contentLength 0 true p.tail

/-- `ctx->ranges`, `size` and `ranges`. -/
structure Found where
  ctxRanges : List Range
  size : ℤ
  ranges : ℕ
  deriving DecidableEq, Repr

/-- The label `found`; `push` tells whether `ngx_array_push` succeeds. -/
def found (push : ℕ → Bool) (range : Range) (st : Found) : Parse Found :=
  if range.start < range.stop then
    if !push st.ctxRanges.length then throw (.returned .error)
    else do
      let len ← offT (range.stop - range.start)
      let room ← offT (ngxMaxOffTValue - len)
      if st.size > room then throw (.returned .notSatisfiable)
      else
        let size ← offT (st.size + len)
        if st.ranges = 0 then throw (.returned .declined)
        else pure ⟨st.ctxRanges ++ [range], size, st.ranges - 1⟩
  else if range.start = 0 then throw (.returned .declined)
  else pure st

/-- `for ( ;; )`, with a number of rounds, and what follows. -/
def rangeLoop (push : ℕ → Bool) (contentLength : ℤ) : ℕ → List UInt8 → Found → Parse (List Range)
  | 0, _, _ => throw .undefined
  | k + 1, p, st => do
    let (range, p) ← parseRange contentLength p
    let st ← found push range st
    let c ← peek p
    if c = comma then rangeLoop push contentLength k p.tail st
    else if st.ctxRanges = [] then throw (.returned .notSatisfiable)
    else if st.size > contentLength then throw (.returned .declined)
    else pure st.ctxRanges

/-- `ngx_http_range_parse`, with as many rounds as are given. `mctx` has the ranges of the main request, for a subrequest
of a request that has them; `init` tells whether `ngx_array_init` succeeds. A value is `NGX_OK`. -/
def ngxHttpRangeParse (mctx : Option (List Range)) (init : Bool) (push : ℕ → Bool) (k : ℕ) (value : List UInt8)
    (contentLength : ℤ) (ranges : ℕ) : Parse (List Range) :=
  match mctx with
  | some ranges => pure ranges
  | none =>
    if !init then throw (.returned .error)
    else rangeLoop push contentLength k ((value ++ [0]).drop 6) ⟨[], 0, ranges⟩

/-! ### Range specifications -/

/-- A range specification: `first-last`, `first-` or `-n`. -/
inductive Spec where
  | fromTo (first last : ℕ)
  | fromOn (first : ℕ)
  | suffix (n : ℕ)
  deriving DecidableEq, Repr

/-- The bytes of a body of `c` bytes that are asked for. -/
def Spec.range (c : ℕ) : Spec → Range
  | .fromTo first last => ⟨first, (min (last + 1) c : ℕ)⟩
  | .fromOn first => ⟨first, c⟩
  | .suffix n => ⟨(c - min n c : ℕ), c⟩

/-- There are bytes in the body that are asked for. -/
def Spec.Satisfiable (c : ℕ) (spec : Spec) : Prop := (spec.range c).start < (spec.range c).stop

instance (c : ℕ) : DecidablePred (Spec.Satisfiable c) := fun _ => inferInstanceAs (Decidable (_ < _))

def Spaces (l : List UInt8) : Prop := ∀ c ∈ l, c = space

/-- A number in decimal. -/
def Digits (l : List UInt8) (n : ℕ) : Prop := l ≠ [] ∧ (∀ c ∈ l, IsDecimal c) ∧ n = decimalFrom 0 l

/-- The texts of a specification. -/
def Spec.Text : Spec → List UInt8 → Prop
  | .fromTo first last, text => ∃ s d s' s'' d' s''', text = s ++ d ++ s' ++ minus :: (s'' ++ d' ++ s''') ∧
      Spaces s ∧ Digits d first ∧ Spaces s' ∧ Spaces s'' ∧ Digits d' last ∧ Spaces s'''
  | .fromOn first, text => ∃ s d s' s'', text = s ++ d ++ s' ++ minus :: s'' ∧
      Spaces s ∧ Digits d first ∧ Spaces s' ∧ Spaces s''
  | .suffix n, text => ∃ s d s', text = s ++ minus :: (d ++ s') ∧ Spaces s ∧ Digits d n ∧ Spaces s'

/-- The satisfiable specifications, in order. -/
def satisfiable (c : ℕ) (specs : List Spec) : List Range :=
  (specs.filter fun spec => spec.Satisfiable c).map (Spec.range c)

/-! ### Parts of the parser -/

section Parts

variable {s rest : List UInt8}

theorem offT_safe {x : ℤ} (hlow : -(2 ^ 63) ≤ x) (hhigh : x ≤ ngxMaxOffTValue) : Safe (offT x) fun y => y = x := by
  rw [offT, if_pos ⟨hlow, hhigh⟩]
  exact safe_pure rfl

theorem peek_append (s rest : List UInt8) : peek (s ++ 0 :: rest) = pure (s.headD 0) := by
  cases s <;> rfl

theorem skipSpaces_safe (s rest : List UInt8) : Safe (skipSpaces (s ++ 0 :: rest)) fun p =>
    ∃ sp s', s = sp ++ s' ∧ Spaces sp ∧ p = s' ++ 0 :: rest := by
  induction s with
  | nil => exact ⟨[], [], rfl, fun c hc => absurd hc List.not_mem_nil, rfl⟩
  | cons c s ih =>
      rw [List.cons_append, skipSpaces]
      refine safe_ite (fun hc => ?_) fun _ => ⟨[], c :: s, rfl, fun c hc => absurd hc List.not_mem_nil, rfl⟩
      refine Safe.mono ih fun p hp => ?_
      obtain ⟨sp, s', rfl, hsp, rfl⟩ := hp
      exact ⟨c :: sp, s', rfl, List.forall_mem_cons.mpr ⟨hc, hsp⟩, rfl⟩

/-- The digits that are read are all that stand there. -/
theorem rangeDigits_safe (s rest : List UInt8) {value : ℕ} (hvalue : (value : ℤ) ≤ ngxMaxOffTValue) :
    Safe (rangeDigits (s ++ 0 :: rest) value) fun (p, n) => ∃ d s', s = d ++ s' ∧ (∀ c ∈ d, IsDecimal c) ∧
      p = s' ++ 0 :: rest ∧ n = (decimalFrom value d : ℕ) ∧ n ≤ ngxMaxOffTValue ∧ ¬IsDecimal (s'.headD 0) := by
  induction s generalizing value with
  | nil =>
      rw [List.nil_append, rangeDigits, if_neg (by decide)]
      exact safe_pure ⟨[], [], rfl, fun c hc => absurd hc List.not_mem_nil, rfl, rfl, hvalue, by decide⟩
  | cons c s ih =>
      rw [List.cons_append, rangeDigits]
      refine safe_ite (fun hc => safe_ite (fun _ => safe_return _) fun hcut => ?_) fun hc =>
        safe_pure ⟨[], c :: s, rfl, fun c hc => absurd hc List.not_mem_nil, rfl, rfl, hvalue, hc⟩
      have hlow : 48 ≤ c.toNat := UInt8.le_iff_toNat_le.mp hc.1
      have hhigh : c.toNat ≤ 57 := UInt8.le_iff_toNat_le.mp hc.2
      have hnext : ((value * 10 + (c.toNat - 48) : ℕ) : ℤ) ≤ ngxMaxOffTValue := by
        rw [ngxMaxOffTValue] at hcut ⊢
        omega
      refine safe_bind (offT_safe (by omega) (by omega)) fun tens htens => ?_
      refine safe_bind (offT_safe (x := tens + ((c.toNat : ℤ) - 48)) (by omega) (by omega)) fun n hn => ?_
      have hn' : n = (value * 10 + (c.toNat - 48) : ℕ) := by omega
      rw [hn']
      refine Safe.mono (ih hnext) fun res hres => ?_
      obtain ⟨d, s', rfl, hd, hp, hnum, hmax, hhead⟩ := hres
      exact ⟨c :: d, s', rfl, List.forall_mem_cons.mpr ⟨hc, hd⟩, hp, hnum, hmax, hhead⟩

/-- A number with a digit at least. -/
theorem rangeDigits_digits {s rest : List UInt8} (hhead : IsDecimal (s.headD 0)) :
    Safe (rangeDigits (s ++ 0 :: rest) 0) fun (p, n) => ∃ d s' m, s = d ++ s' ∧ Digits d m ∧ p = s' ++ 0 :: rest ∧
      n = (m : ℕ) ∧ n ≤ ngxMaxOffTValue := by
  refine Safe.mono (@rangeDigits_safe s rest 0 (by decide)) fun res hres => ?_
  obtain ⟨d, s', rfl, hd, hp, hn, hmax, hend⟩ := hres
  refine ⟨d, s', decimalFrom 0 d, rfl, ⟨?_, hd, rfl⟩, hp, hn, hmax⟩
  rintro rfl
  exact hend hhead

/-- What is behind a specification: the end, or a comma. -/
def Behind (s' : List UInt8) : Prop := s' = [] ∨ ∃ t, s' = comma :: t

theorem behind_of_peek {s : List UInt8} (hs : (0 : UInt8) ∉ s) (h : ¬(s.headD 0 ≠ comma ∧ s.headD 0 ≠ 0)) : Behind s := by
  cases s with
  | nil => exact Or.inl rfl
  | cons c s =>
      have hc : c ≠ 0 := fun hzero => hs (hzero ▸ List.mem_cons_self)
      rw [List.headD_cons] at h
      have hcomma : c = comma := not_not.mp fun hne => h ⟨hne, hc⟩
      exact Or.inr ⟨s, by rw [hcomma]⟩

theorem suffixStart_safe {c n : ℕ} (hc : (c : ℤ) ≤ ngxMaxOffTValue) :
    Safe (suffixStart c n) fun x => x = (c - min n c : ℕ) := by
  refine safe_ite (fun hlt => ?_) fun hge => safe_pure (by omega)
  refine Safe.mono (offT_safe (by omega) (by omega)) fun x hx => ?_
  omega

theorem endBehind_safe {c : ℕ} {stop : ℤ} (hc : (c : ℤ) ≤ ngxMaxOffTValue) (hstop : -1 ≤ stop) :
    Safe (endBehind c stop) fun x => x = min (stop + 1) c := by
  refine safe_ite (fun hge => safe_pure (by omega)) fun hlt => ?_
  refine Safe.mono (offT_safe (by omega) (by omega)) fun x hx => ?_
  omega

/-- The end of a range, and the length of a suffix. -/
theorem parseEnd_safe {c : ℕ} (hc : (c : ℤ) ≤ ngxMaxOffTValue) (hs : (0 : UInt8) ∉ s) (start : ℤ) (suffix : Bool) :
    Safe (parseEnd c start suffix (s ++ 0 :: rest)) fun (range, p) => ∃ d sp s' n, s = d ++ (sp ++ s') ∧ Digits d n ∧
      Spaces sp ∧ p = s' ++ 0 :: rest ∧ Behind s' ∧
      range = if suffix then Spec.range c (.suffix n) else ⟨start, (min (n + 1) c : ℕ)⟩ := by
  rw [parseEnd, peek_append]
  refine safe_bind (Q := fun a => a = s.headD 0) (safe_pure rfl) fun ch hch => ?_
  rw [hch]
  refine safe_ite (fun _ => safe_return _) fun hdigit => ?_
  refine safe_bind (rangeDigits_digits (not_not.mp hdigit)) fun (p, stop) hread => ?_
  obtain ⟨d, s', n, rfl, hd, rfl, rfl, hn⟩ := hread
  refine safe_bind (skipSpaces_safe s' rest) fun p hp => ?_
  obtain ⟨sp, s', rfl, hsp, rfl⟩ := hp
  rw [peek_append]
  refine safe_bind (Q := fun a => a = s'.headD 0) (safe_pure rfl) fun ch hch => ?_
  rw [hch]
  refine safe_ite (fun _ => safe_return _) fun hbehind => ?_
  have hs' : (0 : UInt8) ∉ s' := fun h => hs (List.mem_append_right _ (List.mem_append_right _ h))
  have hend := behind_of_peek hs' hbehind
  cases suffix with
  | true =>
      rw [if_pos rfl]
      refine safe_bind (suffixStart_safe hc) fun start hstart => ?_
      refine safe_bind (offT_safe (x := (c : ℤ) - 1) (by omega) (by omega)) fun stop hstop => ?_
      refine safe_bind (endBehind_safe hc (by omega)) fun x hx => ?_
      refine safe_pure ⟨d, sp, s', n, rfl, hd, hsp, rfl, hend, ?_⟩
      have hx' : x = c := by omega
      rw [hstart, hx', if_pos rfl, Spec.range]
  | false =>
      rw [if_neg Bool.false_ne_true]
      refine safe_bind (endBehind_safe hc (by omega)) fun x hx => ?_
      refine safe_pure ⟨d, sp, s', n, rfl, hd, hsp, rfl, hend, ?_⟩
      have hx' : x = (min (n + 1) c : ℕ) := by omega
      rw [hx', if_neg Bool.false_ne_true]

/-- One range is one specification. -/
theorem parseRange_safe {c : ℕ} (hc : (c : ℤ) ≤ ngxMaxOffTValue) (hs : (0 : UInt8) ∉ s) :
    Safe (parseRange c (s ++ 0 :: rest)) fun (range, p) => ∃ spec text s', s = text ++ s' ∧ Spec.Text spec text ∧
      p = s' ++ 0 :: rest ∧ Behind s' ∧ range = spec.range c := by
  rw [parseRange]
  refine safe_bind (skipSpaces_safe s rest) fun p hp => ?_
  obtain ⟨sp, s, rfl, hsp, rfl⟩ := hp
  rw [peek_append]
  refine safe_bind (Q := fun a => a = s.headD 0) (safe_pure rfl) fun ch hch => ?_
  rw [hch]
  have hs₁ : (0 : UInt8) ∉ s := fun h => hs (List.mem_append_right _ h)
  refine safe_ite (fun _ => safe_ite (fun _ => safe_return _) fun hdigit => ?_) fun hminus => ?_
  · refine safe_bind (rangeDigits_digits (not_not.mp hdigit)) fun (p, start) hread => ?_
    obtain ⟨d, s, first, rfl, hd, rfl, rfl, hfirst⟩ := hread
    refine safe_bind (skipSpaces_safe s rest) fun p hp => ?_
    obtain ⟨sp', s, rfl, hsp', rfl⟩ := hp
    rw [peek_append]
    refine safe_bind (Q := fun a => a = s.headD 0) (safe_pure rfl) fun ch hch => ?_
    rw [hch]
    refine safe_ite (fun _ => safe_return _) fun hminus => ?_
    obtain ⟨s, rfl⟩ : ∃ t, s = minus :: t := by
      cases s with
      | nil => exact absurd (not_not.mp hminus) (by decide)
      | cons c s => exact ⟨s, by rw [← not_not.mp hminus]; rfl⟩
    rw [List.cons_append, List.tail_cons]
    refine safe_bind (skipSpaces_safe s rest) fun p hp => ?_
    obtain ⟨sp'', s, rfl, hsp'', rfl⟩ := hp
    have hs₂ : (0 : UInt8) ∉ s := fun h => hs₁ (List.mem_append_right _ (List.mem_append_right _
      (List.mem_cons_of_mem _ (List.mem_append_right _ h))))
    rw [peek_append]
    refine safe_bind (Q := fun a => a = s.headD 0) (safe_pure rfl) fun ch hch => ?_
    rw [hch]
    refine safe_ite (fun hend => ?_) fun _ => ?_
    · refine safe_pure ⟨.fromOn first, sp ++ d ++ sp' ++ minus :: sp'', s, by simp, ⟨sp, d, sp', sp'', rfl, hsp, hd, hsp', hsp''⟩,
        rfl, behind_of_peek hs₂ (by tauto), rfl⟩
    · refine Safe.mono (parseEnd_safe hc hs₂ first false) fun res hres => ?_
      obtain ⟨d', sp''', s', last, rfl, hd', hsp''', hp, hbehind, hrange⟩ := hres
      exact ⟨.fromTo first last, sp ++ d ++ sp' ++ minus :: (sp'' ++ d' ++ sp'''), s', by simp,
        ⟨sp, d, sp', sp'', d', sp''', rfl, hsp, hd, hsp', hsp'', hd', hsp'''⟩, hp, hbehind, hrange⟩
  · obtain ⟨s, rfl⟩ : ∃ t, s = minus :: t := by
      cases s with
      | nil => exact absurd (not_not.mp hminus) (by decide)
      | cons c s => exact ⟨s, by rw [← not_not.mp hminus]; rfl⟩
    have hs₂ : (0 : UInt8) ∉ s := fun h => hs₁ (List.mem_cons_of_mem _ h)
    rw [List.cons_append, List.tail_cons]
    refine Safe.mono (parseEnd_safe hc hs₂ 0 true) fun res hres => ?_
    obtain ⟨d, sp', s', n, rfl, hd, hsp', hp, hbehind, hrange⟩ := hres
    exact ⟨.suffix n, sp ++ minus :: (d ++ sp'), s', by simp, ⟨sp, d, sp', rfl, hsp, hd, hsp'⟩, hp, hbehind, hrange⟩

end Parts

/-! ### Lists of ranges -/

/-- `end - start` -/
def Range.len (range : Range) : ℤ := range.stop - range.start

/-- A range of bytes of a body of `c` bytes. -/
structure Range.Inside (c : ℕ) (range : Range) : Prop where
  nonneg : 0 ≤ range.start
  nonempty : range.start < range.stop
  le : range.stop ≤ c

theorem Spec.Satisfiable.inside {c : ℕ} {spec : Spec} (h : spec.Satisfiable c) : (spec.range c).Inside c := by
  refine ⟨?_, h, ?_⟩
  · cases spec <;> exact Int.natCast_nonneg _
  · cases spec with
    | fromTo first last => exact Int.ofNat_le.mpr (Nat.min_le_right _ _)
    | fromOn first => exact Int.le_refl _
    | suffix n => exact Int.le_refl _

/-- The state of the loop: the ranges so far, their size, and how many more may follow. -/
structure Found.Inv (c limit : ℕ) (st : Found) : Prop where
  inside : ∀ range ∈ st.ctxRanges, range.Inside c
  size_eq : st.size = (st.ctxRanges.map Range.len).sum
  size_le : st.size ≤ ngxMaxOffTValue
  count : st.ctxRanges.length + st.ranges = limit

theorem sum_len_nonneg {c : ℕ} {ctxRanges : List Range} (h : ∀ range ∈ ctxRanges, range.Inside c) :
    0 ≤ (ctxRanges.map Range.len).sum := by
  refine List.sum_nonneg fun x hx => ?_
  obtain ⟨range, hrange, rfl⟩ := List.mem_map.mp hx
  have hnonempty := (h range hrange).nonempty
  rw [Range.len]
  omega

theorem satisfiable_one {c : ℕ} {spec : Spec} (h : spec.Satisfiable c) : satisfiable c [spec] = [spec.range c] := by
  have hfilter : [spec].filter (fun spec => spec.Satisfiable c) = [spec] := by
    simpa using h
  rw [satisfiable, hfilter, List.map_singleton]

theorem satisfiable_none {c : ℕ} {spec : Spec} (h : ¬spec.Satisfiable c) : satisfiable c [spec] = [] := by
  have hfilter : [spec].filter (fun spec => spec.Satisfiable c) = [] := by
    simpa using h
  rw [satisfiable, hfilter, List.map_nil]

/-- A satisfiable specification adds its range, another one adds nothing. -/
theorem found_safe {c limit : ℕ} {push : ℕ → Bool} {spec : Spec} {st : Found} (hc : (c : ℤ) ≤ ngxMaxOffTValue)
    (hst : st.Inv c limit) : Safe (found push (spec.range c) st) fun st' => st'.Inv c limit ∧
      st'.ctxRanges = st.ctxRanges ++ satisfiable c [spec] := by
  rw [found]
  refine safe_ite (fun hsat => safe_ite (fun _ => safe_return _) fun _ => ?_) fun hunsat =>
    safe_ite (fun _ => safe_return _) fun _ => ?_
  · have hinside : (spec.range c).Inside c := Spec.Satisfiable.inside hsat
    obtain ⟨hnonneg, hnonempty, hle⟩ := hinside
    have hsum := sum_len_nonneg hst.inside
    have hmax : (0 : ℤ) ≤ ngxMaxOffTValue := by decide
    refine safe_bind (offT_safe (by omega) (by omega)) fun len hlen => ?_
    refine safe_bind (offT_safe (x := ngxMaxOffTValue - len) (by omega) (by omega)) fun room hroom => ?_
    refine safe_ite (fun _ => safe_return _) fun hfits => ?_
    rw [← hst.size_eq] at hsum
    refine safe_bind (offT_safe (x := st.size + len) (by omega) (by omega)) fun size hsize => ?_
    refine safe_ite (fun _ => safe_return _) fun hleft => safe_pure ⟨⟨?_, ?_, ?_, ?_⟩, ?_⟩
    · intro range hrange
      rcases List.mem_append.mp hrange with hrange | hrange
      · exact hst.inside range hrange
      · rw [List.mem_singleton.mp hrange]
        exact ⟨hnonneg, hnonempty, hle⟩
    · rw [hsize, hlen, List.map_append, List.sum_append, List.map_singleton, List.sum_singleton, hst.size_eq, Range.len]
    · show size ≤ ngxMaxOffTValue
      omega
    · have hcount := hst.count
      show (st.ctxRanges ++ [spec.range c]).length + (st.ranges - 1) = limit
      rw [List.length_append, List.length_singleton]
      omega
    · rw [satisfiable_one hsat]
  · exact safe_pure ⟨hst, by rw [satisfiable_none hunsat, List.append_nil]⟩

/-- The specifications of a text, between commas. -/
def Listed (specs : List Spec) (text : List UInt8) : Prop :=
  ∃ texts, text = [comma].intercalate texts ∧ List.Forall₂ Spec.Text specs texts

theorem satisfiable_cons (c : ℕ) (spec : Spec) (specs : List Spec) :
    satisfiable c (spec :: specs) = satisfiable c [spec] ++ satisfiable c specs := by
  rw [satisfiable, satisfiable, satisfiable, ← List.map_append, ← List.filter_append]
  rfl

/-- Each round of the loop takes a specification and its comma. -/
theorem rangeLoop_safe {c limit k : ℕ} {push : ℕ → Bool} {s rest : List UInt8} {st : Found}
    (hc : (c : ℤ) ≤ ngxMaxOffTValue) (hs : (0 : UInt8) ∉ s) (hk : s.length < k) (hst : st.Inv c limit) :
    Safe (rangeLoop push c k (s ++ 0 :: rest) st) fun ctxRanges => ∃ specs, specs ≠ [] ∧ Listed specs s ∧
      ctxRanges = st.ctxRanges ++ satisfiable c specs ∧ ctxRanges ≠ [] ∧ ctxRanges.length ≤ limit ∧
      (∀ range ∈ ctxRanges, range.Inside c) ∧ (ctxRanges.map Range.len).sum ≤ c := by
  induction k generalizing s st with
  | zero => exact absurd hk (Nat.not_lt_zero _)
  | succ k ih =>
      rw [rangeLoop]
      refine safe_bind (parseRange_safe hc hs) fun (range, p) hread => ?_
      obtain ⟨spec, text, s', rfl, htext, rfl, hbehind, rfl⟩ := hread
      refine safe_bind (found_safe hc hst) fun st' hst' => ?_
      obtain ⟨hinv, hranges⟩ := hst'
      rw [peek_append]
      refine safe_bind (Q := fun a => a = s'.headD 0) (safe_pure rfl) fun ch hch => ?_
      rw [hch]
      rcases hbehind with rfl | ⟨t, rfl⟩
      · rw [if_neg (by decide)]
        refine safe_ite (fun _ => safe_return _) fun hne => safe_ite (fun _ => safe_return _) fun hsize => ?_
        refine safe_pure ⟨[spec], List.cons_ne_nil _ _, ⟨[text], by simp, .cons htext .nil⟩, hranges, hne, ?_, hinv.inside, ?_⟩
        · have hcount := hinv.count
          omega
        · rw [← hinv.size_eq]
          omega
      · rw [List.headD_cons, if_pos rfl, List.cons_append, List.tail_cons]
        have ht : (0 : UInt8) ∉ t := fun h => hs (List.mem_append_right _ (List.mem_cons_of_mem _ h))
        rw [List.length_append, List.length_cons] at hk
        refine Safe.mono (ih ht (by omega) hinv) fun ctxRanges hres => ?_
        obtain ⟨specs, hspecs, ⟨texts, rfl, htexts⟩, hctx, hrest⟩ := hres
        refine ⟨spec :: specs, List.cons_ne_nil _ _, ⟨text :: texts, ?_, .cons htext htexts⟩, ?_, hrest⟩
        · cases htexts with
          | nil => exact absurd rfl hspecs
          | cons _ _ =>
              rw [List.intercalate_cons_cons, List.append_assoc]
              rfl
        · rw [hctx, hranges, satisfiable_cons c spec specs, List.append_assoc]

/-- A string up to its zero byte. -/
theorem terminated (value : List UInt8) : ∃ rest, value ++ [0] = value.takeWhile (· ≠ 0) ++ 0 :: rest := by
  induction value with
  | nil => exact ⟨[], rfl⟩
  | cons c value ih =>
      by_cases hzero : c = 0
      · rw [hzero]
        exact ⟨value ++ [0], rfl⟩
      · obtain ⟨rest, hrest⟩ := ih
        refine ⟨rest, ?_⟩
        rw [List.takeWhile_cons_of_pos (by simpa using hzero), List.cons_append, hrest]
        rfl

/-- `"bytes="` -/
def bytesText : List UInt8 := [98, 121, 116, 101, 115, 61]

/-- The ranges of a header are inside the body, and they are what the satisfiable specifications ask for. A subrequest has
the ranges of the main request. -/
theorem ranges_inside {mctx : Option (List Range)} {init : Bool} {push : ℕ → Bool} {k c limit : ℕ} {value : List UInt8}
    (hc : (c : ℤ) ≤ ngxMaxOffTValue) (hk : value.length < k)
    (hmain : ∀ ranges, mctx = some ranges →
      ∃ init' push', ngxHttpRangeParse none init' push' k (bytesText ++ value) c limit = .ok ranges) :
    Safe (ngxHttpRangeParse mctx init push k (bytesText ++ value) c limit) fun ctxRanges =>
      ctxRanges ≠ [] ∧ ctxRanges.length ≤ limit ∧ (∀ range ∈ ctxRanges, range.Inside c) ∧
      (ctxRanges.map Range.len).sum ≤ c ∧
      ∃ specs, Listed specs (value.takeWhile (· ≠ 0)) ∧ ctxRanges = satisfiable c specs := by
  have hparse : ∀ init push, Safe (ngxHttpRangeParse none init push k (bytesText ++ value) c limit) fun ctxRanges =>
      ctxRanges ≠ [] ∧ ctxRanges.length ≤ limit ∧ (∀ range ∈ ctxRanges, range.Inside c) ∧
      (ctxRanges.map Range.len).sum ≤ c ∧
      ∃ specs, Listed specs (value.takeWhile (· ≠ 0)) ∧ ctxRanges = satisfiable c specs := by
    intro init push
    rw [ngxHttpRangeParse]
    refine safe_ite (fun _ => safe_return _) fun _ => ?_
    -- the text up to its first zero byte
    obtain ⟨rest, hvalue⟩ := terminated value
    have hdrop : (bytesText ++ value ++ [0]).drop 6 = value.takeWhile (· ≠ 0) ++ 0 :: rest := by
      rw [List.append_assoc, ← hvalue]
      rfl
    rw [hdrop]
    have hs : (0 : UInt8) ∉ value.takeWhile (· ≠ 0) := fun h => by
      have hne := List.mem_takeWhile_imp h
      simp at hne
    have hlength : (value.takeWhile (· ≠ 0)).length ≤ value.length := (List.takeWhile_prefix _).length_le
    refine Safe.mono (rangeLoop_safe hc hs (by omega) ⟨fun range hrange => absurd hrange List.not_mem_nil, rfl,
      (by decide : (0 : ℤ) ≤ ngxMaxOffTValue), Nat.zero_add limit⟩) fun ctxRanges hres => ?_
    obtain ⟨specs, -, hlisted, hctx, hne, hcount, hinside, hsum⟩ := hres
    exact ⟨hne, hcount, hinside, hsum, specs, hlisted, hctx⟩
  cases mctx with
  | none => exact hparse init push
  | some ranges =>
      obtain ⟨init', push', hok⟩ := hmain ranges rfl
      have hsafe := hparse init' push'
      rw [hok] at hsafe
      exact hsafe

/-- `bytes=0-1` of ten bytes, for a subrequest. -/
theorem ranges_inside_two : Safe (ngxHttpRangeParse (some [⟨0, 2⟩]) true (fun _ => true) 4 (bytesText ++ [48, 45, 49])
    (10 : ℕ) 1) fun ctxRanges =>
      ctxRanges ≠ [] ∧ ctxRanges.length ≤ 1 ∧ (∀ range ∈ ctxRanges, range.Inside 10) ∧
      (ctxRanges.map Range.len).sum ≤ (10 : ℕ) ∧
      ∃ specs, Listed specs (([48, 45, 49] : List UInt8).takeWhile (· ≠ 0)) ∧ ctxRanges = satisfiable 10 specs :=
  ranges_inside (by decide) (by decide) fun ranges h => ⟨true, fun _ => true, by
    obtain rfl := Option.some.inj h
    rfl⟩

end NginxDtls.ByteRanges
