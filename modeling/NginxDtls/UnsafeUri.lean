import NginxDtls.Checked

/-! Unsafe URIs: `ngx_http_parse_unsafe_uri`, with `ngx_unescape_uri` of the type 0. The arguments are cut off while the
path is looked through, so that `..` right before them is not met by the test for it. -/

namespace NginxDtls.UnsafeUri

open Checked

def slash : UInt8 := 47

def percent : UInt8 := 37

def question : UInt8 := 63

def period : UInt8 := 46

/-! ### The parser -/

/-- `usual` -/
def usual : List UInt32 :=
  [0x00000000, 0x7fff37d6, 0xffffffff, 0x7fffffff, 0xffffffff, 0xffffffff, 0xffffffff, 0xffffffff]

/-- `usual[ch >> 5] & (1U << (ch & 0x1f))` -/
def isUsual (ch : UInt8) : Bool := usual.getD (ch >>> 5).toNat 0 &&& (1 <<< (ch &&& 0x1f).toUInt32) ≠ 0

/-- `state` of `ngx_unescape_uri` -/
inductive UnescapeState where
  | usual
  | quoted
  | quotedSecond
  deriving DecidableEq, Repr

/-- A hexadecimal digit. -/
def hexDigit (ch : UInt8) : Option UInt8 :=
  if 48 ≤ ch ∧ ch ≤ 57 then some (ch - 48)
  else if 97 ≤ ch ||| 0x20 ∧ ch ||| 0x20 ≤ 102 then some ((ch ||| 0x20) - 97 + 10)
  else none

/-- The loop of `ngx_unescape_uri` for the type 0: what it writes. -/
def unescapeLoop : List UInt8 → UnescapeState → UInt8 → List UInt8
  | [], _, _ => []
  | ch :: s, .usual, decoded => if ch = percent then unescapeLoop s .quoted decoded else ch :: unescapeLoop s .usual decoded
  | ch :: s, .quoted, decoded =>
    match hexDigit ch with
    | some digit => unescapeLoop s .quotedSecond digit
    | none => ch :: unescapeLoop s .usual decoded
  | ch :: s, .quotedSecond, decoded =>
    match hexDigit ch with
    | some digit => ((decoded <<< 4) + digit) :: unescapeLoop s .usual decoded
    | none => unescapeLoop s .usual decoded

def ngxUnescapeUri (src : List UInt8) : List UInt8 := unescapeLoop src .usual 0

/-- `NGX_ERROR`, and whether the URI is logged as unsafe. -/
structure UriError where
  logged : Bool
  deriving DecidableEq, Repr

/-- `uri` and `args` at `NGX_OK`. -/
structure UriParts where
  uri : List UInt8
  args : Option (List UInt8)
  deriving DecidableEq, Repr

/-- `p[0] == '.' && len > 1 && p[1] == '.' && (len == 2 || ngx_path_separator(p[2]))` -/
def leadingDots (p : List UInt8) (len : ℕ) : Checked UriError Bool := do
  let c ← peekAt p 0
  if c ≠ period ∨ ¬len > 1 then pure false
  else
    let c ← peekAt p 1
    if c ≠ period then pure false
    else if len = 2 then pure true
    else
      let c ← peekAt p 2
      pure (c = slash)

/-- `p[0] == '.' && p[1] == '.' && (len == 3 || ngx_path_separator(p[2]))` -/
def followingDots (p : List UInt8) (len : ℕ) : Checked UriError Bool := do
  let c ← peekAt p 0
  if c ≠ period then pure false
  else
    let c ← peekAt p 1
    if c ≠ period then pure false
    else if len = 3 then pure true
    else
      let c ← peekAt p 2
      pure (c = slash)

/-- The first loop: `quoted`, and `len` at the question mark if there is one. -/
def scanUri (unsafeUri : UriError) : ℕ → List UInt8 → Bool → Checked UriError (Bool × Option ℕ)
  | 0, _, quoted => pure (quoted, none)
  | len + 1, p, quoted => do
    let ch ← peekAt p 0
    let p := p.tail
    if ch = percent then scanUri unsafeUri len p true
    else if isUsual ch then scanUri unsafeUri len p quoted
    else if ch = question then pure (quoted, some (len + 1))
    else if ch = 0 then throw (.returned unsafeUri)
    else if ch = slash ∧ len + 1 > 2 then
      let dots ← followingDots p (len + 1)
      if dots then throw (.returned unsafeUri) else scanUri unsafeUri len p quoted
    else scanUri unsafeUri len p quoted

/-- The loop over the decoded copy. -/
def scanDecoded (unsafeUri : UriError) : ℕ → List UInt8 → Checked UriError Unit
  | 0, _ => pure ()
  | len + 1, p => do
    let ch ← peekAt p 0
    let p := p.tail
    if ch = 0 then throw (.returned unsafeUri)
    else if ch = slash ∧ len + 1 > 2 then
      let dots ← followingDots p (len + 1)
      if dots then throw (.returned unsafeUri) else scanDecoded unsafeUri len p
    else scanDecoded unsafeUri len p

/-- A block of `size` bytes after the first bytes are written. -/
def blockOf (size : ℕ) (fresh : ℕ → UInt8) (written : List UInt8) : List UInt8 :=
  (List.range size).map fun i => written.getD i (fresh i)

/-- The branch `quoted`: the decoded copy, looked through again. -/
def decodeUri (log alloc : Bool) (fresh : ℕ → UInt8) (cut : List UInt8) : Checked UriError (List UInt8) :=
  if !alloc then throw (.returned ⟨false⟩)
  else do
    let decoded := ngxUnescapeUri cut
    let block := blockOf cut.length fresh decoded
    let dots ← leadingDots block decoded.length
    if dots then throw (.returned ⟨log⟩)
    else
      scanDecoded ⟨log⟩ decoded.length block
      pure decoded

/-- `ngx_http_parse_unsafe_uri`. `log` is the flag `NGX_HTTP_LOG_UNSAFE`; `alloc` tells whether there is memory for the
decoded copy, and `fresh` what it held before. -/
def ngxHttpParseUnsafeUri (log alloc : Bool) (fresh : ℕ → UInt8) (uri : List UInt8) : Checked UriError UriParts :=
  if uri.length = 0 then throw (.returned ⟨log⟩)
  else do
    let c ← peekAt uri 0
    if c = question then throw (.returned ⟨log⟩)
    else
      let dots ← leadingDots uri uri.length
      if dots then throw (.returned ⟨log⟩)
      else
        let (quoted, len) ← scanUri ⟨log⟩ uri.length uri false
        let cut := uri.take (uri.length - len.getD 0)
        let args := len.map fun len => (uri.drop (uri.length - len)).tail
        if ¬quoted then pure ⟨cut, args⟩
        else
          let decoded ← decodeUri log alloc fresh cut
          pure ⟨decoded, args⟩

/-! ### Paths -/

/-- The path before the first question mark. -/
def cutUri (uri : List UInt8) : List UInt8 := uri.takeWhile (· ≠ question)

/-- A segment of a path is `..`. -/
def HasDotDot (path : List UInt8) : Prop :=
  ∃ pre post, path = pre ++ [period, period] ++ post ∧ (pre = [] ∨ ∃ q, pre = q ++ [slash]) ∧
    (post = [] ∨ ∃ q, post = slash :: q)

/-- The first segment of a path is `..`. -/
def DotDotAt (p : List UInt8) : Prop := p = [period, period] ∨ ∃ t, p = period :: period :: slash :: t

theorem dotDotAt_append_question {p r : List UInt8} :
    DotDotAt (p ++ question :: r) ↔ ∃ t, p = period :: period :: slash :: t := by
  constructor
  · rintro (h | ⟨t, h⟩)
    · match p, h with
      | [], h => simp [question, period] at h
      | [_], h => simp [question, period] at h
      | _ :: _ :: _, h => simp at h
    · match p, h with
      | [], h => simp [question, period] at h
      | [_], h => simp [question, period] at h
      | [_, _], h => simp [question, slash] at h
      | a :: b :: c :: p, h =>
        simp only [List.cons_append, List.cons.injEq] at h
        obtain ⟨rfl, rfl, rfl, -⟩ := h
        exact ⟨p, rfl⟩
  · rintro ⟨t, rfl⟩
    exact .inr ⟨t ++ question :: r, rfl⟩

theorem hasDotDot_iff {path : List UInt8} :
    HasDotDot path ↔ DotDotAt path ∨ ∃ q t, path = q ++ slash :: t ∧ DotDotAt t := by
  constructor
  · rintro ⟨pre, post, rfl, rfl | ⟨q, rfl⟩, rfl | ⟨r, rfl⟩⟩
    · exact .inl (.inl rfl)
    · exact .inl (.inr ⟨r, rfl⟩)
    · exact .inr ⟨q, [period, period], by simp, .inl rfl⟩
    · exact .inr ⟨q, period :: period :: slash :: r, by simp, .inr ⟨r, rfl⟩⟩
  · rintro ((rfl | ⟨t, rfl⟩) | ⟨q, t, rfl, rfl | ⟨r, rfl⟩⟩)
    · exact ⟨[], [], rfl, .inl rfl, .inl rfl⟩
    · exact ⟨[], slash :: t, rfl, .inl rfl, .inr ⟨t, rfl⟩⟩
    · exact ⟨q ++ [slash], [], by simp, .inr ⟨q, rfl⟩, .inl rfl⟩
    · exact ⟨q ++ [slash], slash :: r, by simp, .inr ⟨q, rfl⟩, .inr ⟨r, rfl⟩⟩

/-- A path the loop over the decoded copy refuses. -/
def Refused (p : List UInt8) : Prop := 0 ∈ p ∨ ∃ q t, p = q ++ slash :: t ∧ DotDotAt t

/-- A URI the first loop refuses: nothing behind a question mark counts. -/
def RefusedUri (p : List UInt8) : Prop :=
  0 ∈ cutUri p ∨ ∃ q t, p = q ++ slash :: t ∧ question ∉ q ∧ DotDotAt t

theorem not_refused_nil : ¬Refused [] := by
  rintro (h | ⟨q, t, h, -⟩)
  · simp at h
  · simp at h

theorem refused_cons {c : UInt8} {p : List UInt8} :
    Refused (c :: p) ↔ c = 0 ∨ c = slash ∧ DotDotAt p ∨ Refused p := by
  constructor
  · rintro (h | ⟨q, t, h, ht⟩)
    · obtain rfl | h := List.mem_cons.1 h
      · exact .inl rfl
      · exact .inr (.inr (.inl h))
    · match q, h with
      | [], h =>
        obtain ⟨rfl, rfl⟩ := List.cons.inj h
        exact .inr (.inl ⟨rfl, ht⟩)
      | d :: q, h =>
        obtain ⟨rfl, rfl⟩ := List.cons.inj h
        exact .inr (.inr (.inr ⟨q, t, rfl, ht⟩))
  · rintro (rfl | ⟨rfl, h⟩ | h | ⟨q, t, rfl, ht⟩)
    · exact .inl List.mem_cons_self
    · exact .inr ⟨[], p, rfl, h⟩
    · exact .inl (List.mem_cons_of_mem c h)
    · exact .inr ⟨c :: q, t, rfl, ht⟩

theorem cutUri_cons {c : UInt8} {p : List UInt8} (h : c ≠ question) : cutUri (c :: p) = c :: cutUri p :=
  List.takeWhile_cons_of_pos (by simpa using h)

theorem cutUri_question (p : List UInt8) : cutUri (question :: p) = [] := rfl

theorem not_refusedUri_question {p : List UInt8} : ¬RefusedUri (question :: p) := by
  rintro (h | ⟨q, t, h, hq, -⟩)
  · simp [cutUri_question] at h
  · match q, h with
    | [], h => exact absurd (List.cons.inj h).1 (by decide)
    | d :: q, h => exact hq ((List.cons.inj h).1 ▸ List.mem_cons_self)

theorem refusedUri_cons {c : UInt8} {p : List UInt8} (hc : c ≠ question) :
    RefusedUri (c :: p) ↔ c = 0 ∨ c = slash ∧ DotDotAt p ∨ RefusedUri p := by
  unfold RefusedUri
  rw [cutUri_cons hc]
  constructor
  · rintro (h | ⟨q, t, h, hq, ht⟩)
    · obtain rfl | h := List.mem_cons.1 h
      · exact .inl rfl
      · exact .inr (.inr (.inl h))
    · match q, h with
      | [], h =>
        obtain ⟨rfl, rfl⟩ := List.cons.inj h
        exact .inr (.inl ⟨rfl, ht⟩)
      | d :: q, h =>
        obtain ⟨rfl, rfl⟩ := List.cons.inj h
        exact .inr (.inr (.inr ⟨q, t, rfl, fun h => hq (List.mem_cons_of_mem c h), ht⟩))
  · rintro (rfl | ⟨rfl, h⟩ | h | ⟨q, t, rfl, hq, ht⟩)
    · exact .inl List.mem_cons_self
    · exact .inr ⟨[], p, rfl, by simp, h⟩
    · exact .inl (List.mem_cons_of_mem c h)
    · exact .inr ⟨c :: q, t, rfl, by simp [hq, hc.symm], ht⟩

/-! ### What the loops find -/

theorem leadingDots_eq {w junk : List UInt8} (h : w ++ junk ≠ []) :
    ∃ dots, leadingDots (w ++ junk) w.length = pure dots ∧ (dots = true ↔ DotDotAt w) := by
  match w with
  | [] =>
    obtain ⟨c, junk, rfl⟩ := List.exists_cons_of_ne_nil h
    exact ⟨false, by simp [leadingDots, peekAt], by simp [DotDotAt]⟩
  | [a] => exact ⟨false, by simp [leadingDots, peekAt], by simp [DotDotAt]⟩
  | [a, b] =>
    refine ⟨a = period ∧ b = period, ?_, by simp [DotDotAt]⟩
    by_cases ha : a = period <;> by_cases hb : b = period <;> simp [leadingDots, peekAt, ha, hb]
  | a :: b :: c :: w =>
    refine ⟨a = period ∧ b = period ∧ c = slash, ?_, by simp [DotDotAt]⟩
    by_cases ha : a = period <;> by_cases hb : b = period <;> simp [leadingDots, peekAt, ha, hb]

theorem followingDots_eq {w junk : List UInt8} (h : w.length + 1 > 2) :
    ∃ dots, followingDots (w ++ junk) (w.length + 1) = pure dots ∧ (dots = true ↔ DotDotAt w) := by
  match w, h with
  | [a, b], _ =>
    refine ⟨a = period ∧ b = period, ?_, by simp [DotDotAt]⟩
    by_cases ha : a = period <;> by_cases hb : b = period <;> simp [followingDots, peekAt, ha, hb]
  | a :: b :: c :: w, _ =>
    refine ⟨a = period ∧ b = period ∧ c = slash, ?_, by simp [DotDotAt]⟩
    by_cases ha : a = period <;> by_cases hb : b = period <;> simp [followingDots, peekAt, ha, hb]

theorem DotDotAt.two_le {p : List UInt8} (h : DotDotAt p) : p.length + 1 > 2 := by
  obtain rfl | ⟨t, rfl⟩ := h
  · decide
  · simp

section SlashTest

variable {α : Type} {e : UriError} {c : UInt8} {w junk : List UInt8} {next : Checked UriError α}

/-- The tests for a zero byte and for `..` behind a slash, which both loops make. -/
theorem slashTest_refuses (h : c = 0 ∨ c = slash ∧ DotDotAt w) :
    (if c = 0 then throw (.returned e)
      else if c = slash ∧ w.length + 1 > 2 then
        followingDots (w ++ junk) (w.length + 1) >>= fun dots => if dots then throw (.returned e) else next
      else next) = throw (.returned e) := by
  by_cases h0 : c = 0
  · rw [if_pos h0]
  · obtain ⟨hc, hdots⟩ := h.resolve_left h0
    obtain ⟨dots, hd, hiff⟩ := @followingDots_eq w junk hdots.two_le
    rw [if_neg h0, if_pos ⟨hc, hdots.two_le⟩, hd, pure_bind, if_pos (hiff.2 hdots)]

theorem slashTest_passes (h0 : c ≠ 0) (hdots : ¬(c = slash ∧ DotDotAt w)) :
    (if c = 0 then throw (.returned e)
      else if c = slash ∧ w.length + 1 > 2 then
        followingDots (w ++ junk) (w.length + 1) >>= fun dots => if dots then throw (.returned e) else next
      else next) = next := by
  rw [if_neg h0]
  split
  · next hc =>
    obtain ⟨dots, hd, hiff⟩ := @followingDots_eq w junk hc.2
    rw [hd, pure_bind, if_neg fun h => hdots ⟨hc.1, hiff.1 h⟩]
  · rfl

end SlashTest

theorem scanDecoded_refused (e : UriError) {junk : List UInt8} {w : List UInt8} (h : Refused w) :
    scanDecoded e w.length (w ++ junk) = throw (.returned e) := by
  induction w with
  | nil => exact absurd h not_refused_nil
  | cons c w ih =>
      simp only [List.length_cons, List.cons_append, scanDecoded, peekAt, List.getElem?_cons_zero, pure_bind,
        List.tail_cons]
      by_cases htest : c = 0 ∨ c = slash ∧ DotDotAt w
      · exact slashTest_refuses htest
      · rw [slashTest_passes (fun h0 => htest (.inl h0)) fun hdots => htest (.inr hdots)]
        rw [refused_cons, ← or_assoc] at h
        exact ih (h.resolve_left htest)

theorem scanDecoded_accepted (e : UriError) {junk : List UInt8} {w : List UInt8} (h : ¬Refused w) :
    scanDecoded e w.length (w ++ junk) = pure () := by
  induction w with
  | nil => rfl
  | cons c w ih =>
      rw [refused_cons, not_or, not_or] at h
      simp only [List.length_cons, List.cons_append, scanDecoded, peekAt, List.getElem?_cons_zero, pure_bind,
        List.tail_cons]
      rw [slashTest_passes h.1 h.2.1, ih h.2.2]

theorem isUsual_special : isUsual question = false ∧ isUsual 0 = false ∧ isUsual slash = false := by decide

theorem scanUri_refused (e : UriError) {w : List UInt8} {quoted : Bool} (h : RefusedUri w) :
    scanUri e w.length w quoted = throw (.returned e) := by
  obtain ⟨hq, hz, hs⟩ := isUsual_special
  induction w generalizing quoted with
  | nil =>
      obtain h | ⟨q, t, h, -⟩ := h
      · simp [cutUri] at h
      · simp at h
  | cons c w ih =>
      have hc : c ≠ question := by
        rintro rfl
        exact not_refusedUri_question h
      rw [refusedUri_cons hc] at h
      simp only [List.length_cons, scanUri, peekAt, List.getElem?_cons_zero, pure_bind, List.tail_cons]
      split
      · next hp =>
        refine ih ?_
        obtain rfl | ⟨rfl, -⟩ | h := h
        · exact absurd hp (by decide)
        · exact absurd hp (by decide)
        · exact h
      split
      · next hu =>
        refine ih ?_
        obtain rfl | ⟨rfl, -⟩ | h := h
        · simp [hz] at hu
        · simp [hs] at hu
        · exact h
      by_cases htest : c = 0 ∨ c = slash ∧ DotDotAt w
      · simpa using @slashTest_refuses _ e c w [] (scanUri e w.length w quoted) htest
      · have hpasses := @slashTest_passes _ e c w [] (scanUri e w.length w quoted) (fun h0 => htest (.inl h0))
          fun hdots => htest (.inr hdots)
        rw [List.append_nil] at hpasses
        rw [hpasses]
        exact ih ((or_assoc.2 h).resolve_left htest)

theorem scanUri_accepted (e : UriError) {w : List UInt8} {quoted : Bool} (h : ¬RefusedUri w) :
    ∃ len, scanUri e w.length w quoted = pure (quoted || decide (percent ∈ cutUri w), len) ∧
      len.getD 0 = (w.dropWhile (· ≠ question)).length := by
  obtain ⟨hq, hz, hs⟩ := isUsual_special
  induction w generalizing quoted with
  | nil => exact ⟨none, by simp [scanUri, cutUri], rfl⟩
  | cons c w ih =>
      simp only [List.length_cons, scanUri, peekAt, List.getElem?_cons_zero, pure_bind, List.tail_cons]
      by_cases hc : c = question
      · subst hc
        refine ⟨some (w.length + 1), ?_, by simp⟩
        rw [if_neg (by decide), if_neg (by simp [hq]), if_pos rfl]
        simp [cutUri_question]
      rw [refusedUri_cons hc] at h
      simp only [not_or, not_and] at h
      obtain ⟨h0, hd, hw⟩ := h
      have hdrop : (c :: w).dropWhile (· ≠ question) = w.dropWhile (· ≠ question) :=
        List.dropWhile_cons_of_pos (by simpa using hc)
      rw [cutUri_cons hc, hdrop]
      split
      · next hp =>
        obtain ⟨len, hscan, hlen⟩ := @ih true hw
        exact ⟨len, by simpa [hp] using hscan, hlen⟩
      · next hp =>
        have hmem : decide (percent ∈ c :: cutUri w) = decide (percent ∈ cutUri w) := by
          simp [Ne.symm hp]
        obtain ⟨len, hscan, hlen⟩ := @ih quoted hw
        refine ⟨len, ?_, hlen⟩
        rw [hmem]
        split
        · exact hscan
        · have hpasses := @slashTest_passes _ e c w [] (scanUri e w.length w quoted) h0 fun h => hd h.1 h.2
          rw [List.append_nil, if_neg h0] at hpasses
          rw [hpasses]
          exact hscan

/-! ### The decoded copy -/

theorem unescapeLoop_length (src : List UInt8) (state : UnescapeState) (decoded : UInt8) :
    (unescapeLoop src state decoded).length ≤ src.length := by
  induction src, state, decoded using unescapeLoop.induct with
  | case1 state decoded => simp [unescapeLoop]
  | case2 s decoded ih =>
      simp only [unescapeLoop, if_pos, List.length_cons]
      omega
  | case3 ch s decoded h ih =>
      simp only [unescapeLoop, if_neg h, List.length_cons]
      omega
  | case4 ch s decoded digit h ih =>
      simp only [unescapeLoop, h, List.length_cons]
      omega
  | case5 ch s decoded h ih =>
      simp only [unescapeLoop, h, List.length_cons]
      omega
  | case6 ch s decoded digit h ih =>
      simp only [unescapeLoop, h, List.length_cons]
      omega
  | case7 ch s decoded h ih =>
      simp only [unescapeLoop, h, List.length_cons]
      omega

theorem unescapeLoop_plain {src : List UInt8} (h : percent ∉ src) (decoded : UInt8) :
    unescapeLoop src .usual decoded = src := by
  induction src with
  | nil => rfl
  | cons c src ih =>
      rw [List.mem_cons, not_or] at h
      rw [unescapeLoop, if_neg (Ne.symm h.1), ih h.2]

theorem ngxUnescapeUri_plain {src : List UInt8} (h : percent ∉ src) : ngxUnescapeUri src = src :=
  unescapeLoop_plain h 0

theorem ngxUnescapeUri_length (src : List UInt8) : (ngxUnescapeUri src).length ≤ src.length :=
  unescapeLoop_length src .usual 0

/-- What is written stands at the front of the block. -/
theorem blockOf_eq {size : ℕ} {written : List UInt8} (fresh : ℕ → UInt8) (h : written.length ≤ size) :
    ∃ junk, blockOf size fresh written = written ++ junk := by
  refine ⟨(blockOf size fresh written).drop written.length, ?_⟩
  have hfront : (blockOf size fresh written).take written.length = written := by
    refine List.ext_getElem ?_ fun i hi hi' => ?_
    · simp [blockOf, h]
    · simp [blockOf, hi']
  conv_lhs => rw [← List.take_append_drop written.length (blockOf size fresh written), hfront]

theorem blockOf_length (size : ℕ) (fresh : ℕ → UInt8) (written : List UInt8) :
    (blockOf size fresh written).length = size := by
  simp [blockOf]

/-! ### What is recognised -/

/-- The URI is taken for what it is: nothing is read outside of the string and of the decoded copy, and a result is the
decoded path, without a zero byte and without a segment `..`. -/
def Recognised (uri : List UInt8) : Prop :=
  ∀ log alloc fresh, Safe (ngxHttpParseUnsafeUri log alloc fresh uri) fun parts =>
    parts.uri = ngxUnescapeUri (cutUri uri) ∧ (0 : UInt8) ∉ parts.uri ∧ ¬HasDotDot parts.uri

/-- The path is `..`, or it ends in `/..` and has no other segment `..`; it has no escape, and arguments follow. -/
def DotsBeforeArgs (uri : List UInt8) : Prop :=
  ∃ path args, uri = path ++ question :: args ∧ question ∉ path ∧ percent ∉ path ∧ (0 : UInt8) ∉ path ∧
    (path = [period, period] ∨ ∃ q, path = q ++ [slash, period, period] ∧ ¬HasDotDot q)

/-- The tests on the raw string refuse the URI. -/
def RawRefused (uri : List UInt8) : Prop := DotDotAt uri ∨ RefusedUri uri

theorem cutUri_take (uri : List UInt8) :
    uri.take (uri.length - (uri.dropWhile (· ≠ question)).length) = cutUri uri := by
  have h : cutUri uri ++ uri.dropWhile (· ≠ question) = uri := List.takeWhile_append_dropWhile
  have hlen : uri.length - (uri.dropWhile (· ≠ question)).length = (cutUri uri).length := by
    have := congrArg List.length h
    rw [List.length_append] at this
    omega
  calc
    uri.take (uri.length - (uri.dropWhile (· ≠ question)).length)
      = (cutUri uri ++ uri.dropWhile (· ≠ question)).take (cutUri uri).length := by rw [hlen, h]
    _ = cutUri uri := List.take_left

theorem parse_question (log alloc : Bool) (fresh : ℕ → UInt8) (args : List UInt8) :
    ngxHttpParseUnsafeUri log alloc fresh (question :: args) = throw (.returned ⟨log⟩) := by
  simp [ngxHttpParseUnsafeUri, peekAt]

/-- A URI the tests on the raw string refuse is unsafe. -/
theorem parse_rawRefused (log alloc : Bool) (fresh : ℕ → UInt8) {uri : List UInt8} (h : RawRefused uri) :
    ngxHttpParseUnsafeUri log alloc fresh uri = throw (.returned ⟨log⟩) := by
  match uri, h with
  | [], _ => rfl
  | c :: uri, h =>
    by_cases hc : c = question
    · rw [hc, parse_question]
    obtain ⟨dots, hd, hiff⟩ := @leadingDots_eq (c :: uri) [] (by simp)
    rw [List.append_nil] at hd
    rw [ngxHttpParseUnsafeUri, if_neg (by simp), peekAt, List.getElem?_cons_zero, pure_bind, if_neg hc, hd, pure_bind]
    split
    · rfl
    · next hn =>
      obtain h | h := h
      · exact absurd (hiff.2 h) hn
      · rw [scanUri_refused ⟨log⟩ h]
        rfl

/-- A URI that passes them is cut off, and decoded if it has an escape. -/
theorem parse_rawAccepted (log alloc : Bool) (fresh : ℕ → UInt8) {c : UInt8} {tail : List UInt8} (hc : c ≠ question)
    (h : ¬RawRefused (c :: tail)) :
    ∃ args, ngxHttpParseUnsafeUri log alloc fresh (c :: tail) =
      if percent ∉ cutUri (c :: tail) then pure ⟨cutUri (c :: tail), args⟩
      else decodeUri log alloc fresh (cutUri (c :: tail)) >>= fun decoded => pure ⟨decoded, args⟩ := by
  rw [RawRefused, not_or] at h
  obtain ⟨dots, hd, hiff⟩ := @leadingDots_eq (c :: tail) [] (by simp)
  rw [List.append_nil] at hd
  obtain ⟨len, hscan, hlen⟩ := @scanUri_accepted ⟨log⟩ (c :: tail) false h.2
  refine ⟨len.map fun len => ((c :: tail).drop ((c :: tail).length - len)).tail, ?_⟩
  rw [ngxHttpParseUnsafeUri, if_neg (by simp), peekAt, List.getElem?_cons_zero, pure_bind, if_neg hc, hd, pure_bind,
    if_neg fun hdots => h.1 (hiff.1 hdots), hscan, pure_bind]
  simp only [hlen, cutUri_take, Bool.false_or, decide_eq_true_eq]

/-- The decoded copy is looked through whole. -/
theorem decodeUri_safe (log alloc : Bool) (fresh : ℕ → UInt8) {cut : List UInt8} (h : cut ≠ []) :
    Safe (decodeUri log alloc fresh cut) fun uri =>
      uri = ngxUnescapeUri cut ∧ (0 : UInt8) ∉ uri ∧ ¬HasDotDot uri := by
  unfold decodeUri
  split
  · exact safe_return _
  obtain ⟨junk, hblock⟩ := blockOf_eq fresh (ngxUnescapeUri_length cut)
  have hne : ngxUnescapeUri cut ++ junk ≠ [] := by
    rw [← hblock]
    intro h'
    have := congrArg List.length h'
    rw [blockOf_length, List.length_nil, List.length_eq_zero_iff] at this
    exact h this
  obtain ⟨dots, hd, hiff⟩ := leadingDots_eq hne
  simp only [hblock, hd, pure_bind]
  split
  · exact safe_return _
  · next hn =>
    by_cases hr : Refused (ngxUnescapeUri cut)
    · rw [scanDecoded_refused _ hr]
      exact safe_return _
    · rw [scanDecoded_accepted _ hr, pure_bind]
      have hdots : ¬HasDotDot (ngxUnescapeUri cut) := by
        rw [hasDotDot_iff, not_or]
        exact ⟨fun h => hn (hiff.2 h), fun h => hr (.inr h)⟩
      exact safe_pure ⟨rfl, fun h => hr (.inl h), hdots⟩

/-- What slips through are paths without an escape that hold `..` where only the raw string was looked at. -/
theorem recognised_iff_raw {uri : List UInt8} :
    Recognised uri ↔ ¬(percent ∉ cutUri uri ∧ HasDotDot (cutUri uri) ∧ ¬RawRefused uri) := by
  have hnil : ¬HasDotDot [] := by simp [hasDotDot_iff, DotDotAt]
  by_cases hr : RawRefused uri
  · refine iff_of_true (fun log alloc fresh => ?_) fun h => h.2.2 hr
    rw [parse_rawRefused log alloc fresh hr]
    exact safe_return _
  match uri with
  | [] => exact iff_of_true (fun log alloc fresh => safe_return _) fun h => hnil h.2.1
  | c :: tail =>
    by_cases hc : c = question
    · subst hc
      refine iff_of_true (fun log alloc fresh => ?_) fun h => hnil h.2.1
      rw [parse_question]
      exact safe_return _
    by_cases hp : percent ∉ cutUri (c :: tail)
    · have hzero : (0 : UInt8) ∉ cutUri (c :: tail) := fun h => hr (.inr (.inl h))
      constructor
      · rintro hrec ⟨-, hdots, -⟩
        obtain ⟨args, hparse⟩ := parse_rawAccepted false false (fun _ => 0) hc hr
        have := hrec false false fun _ => 0
        rw [hparse, if_pos hp] at this
        exact this.2.2 hdots
      · intro hn log alloc fresh
        obtain ⟨args, hparse⟩ := parse_rawAccepted log alloc fresh hc hr
        rw [hparse, if_pos hp]
        exact safe_pure ⟨(ngxUnescapeUri_plain hp).symm, hzero, fun h => hn ⟨hp, h, hr⟩⟩
    · refine iff_of_true (fun log alloc fresh => ?_) fun h => hp h.1
      obtain ⟨args, hparse⟩ := parse_rawAccepted log alloc fresh hc hr
      have hcut : cutUri (c :: tail) ≠ [] := by
        rw [cutUri_cons hc]
        exact List.cons_ne_nil _ _
      rw [hparse, if_neg hp]
      refine safe_bind (decodeUri_safe log alloc fresh hcut) fun decoded hdecoded => ?_
      exact safe_pure hdecoded

theorem cutUri_plain {path : List UInt8} (h : question ∉ path) : cutUri path = path := by
  induction path with
  | nil => rfl
  | cons c path ih =>
      rw [List.mem_cons, not_or] at h
      rw [cutUri_cons (Ne.symm h.1), ih h.2]

theorem cutUri_append_question {path : List UInt8} (h : question ∉ path) (args : List UInt8) :
    cutUri (path ++ question :: args) = path := by
  induction path with
  | nil => rfl
  | cons c path ih =>
      rw [List.mem_cons, not_or] at h
      rw [List.cons_append, cutUri_cons (Ne.symm h.1), ih h.2]

/-- A string is its path, or the path with arguments behind it. -/
theorem cutUri_cases (uri : List UInt8) :
    question ∉ uri ∨ ∃ path args, uri = path ++ question :: args ∧ question ∉ path := by
  by_cases h : question ∈ uri
  · exact .inr (List.eq_append_cons_of_mem h)
  · exact .inl h

/-- With arguments, `..` is refused where a separator follows it. -/
theorem rawRefused_args {path args : List UInt8} (h : question ∉ path) :
    RawRefused (path ++ question :: args) ↔ 0 ∈ path ∨ (∃ t, path = period :: period :: slash :: t) ∨
      ∃ q t, path = q ++ slash :: period :: period :: slash :: t := by
  rw [RawRefused, dotDotAt_append_question, RefusedUri, cutUri_append_question h]
  have hsegment : (∃ q t, path ++ question :: args = q ++ slash :: t ∧ question ∉ q ∧ DotDotAt t) ↔
      ∃ q t, path = q ++ slash :: period :: period :: slash :: t := by
    constructor
    · rintro ⟨q, t, heq, hq, ht⟩
      obtain ⟨r, rfl, hr⟩ | ⟨r, rfl, hr⟩ := List.append_eq_append_iff.1 heq
      · -- the slash would stand behind the question mark
        match r, hr with
        | [], hr => exact absurd (List.cons.inj hr).1 (by decide)
        | d :: r, hr => exact absurd (by simp [← (List.cons.inj hr).1]) hq
      · match r, hr with
        | [], hr => exact absurd (List.cons.inj hr).1 (by decide)
        | d :: r, hr =>
          obtain ⟨rfl, rfl⟩ := List.cons.inj hr
          obtain ⟨s, rfl⟩ := dotDotAt_append_question.1 ht
          exact ⟨q, s, rfl⟩
    · rintro ⟨q, t, rfl⟩
      refine ⟨q, period :: period :: slash :: (t ++ question :: args), by simp, fun hq => h (by simp [hq]), ?_⟩
      exact .inr ⟨_, rfl⟩
  rw [hsegment]
  exact or_left_comm

/-- Behind a segment `..` the last segment stands after a separator. -/
theorem HasDotDot.refused_of_end {q : List UInt8} (h : HasDotDot q) :
    (∃ t, q ++ [slash, period, period] = period :: period :: slash :: t) ∨
      ∃ q' t, q ++ [slash, period, period] = q' ++ slash :: period :: period :: slash :: t := by
  obtain (rfl | ⟨t, rfl⟩) | ⟨q', t, rfl, rfl | ⟨t, rfl⟩⟩ := hasDotDot_iff.1 h
  · exact .inl ⟨[period, period], rfl⟩
  · exact .inl ⟨t ++ [slash, period, period], rfl⟩
  · exact .inr ⟨q', [period, period], by simp⟩
  · exact .inr ⟨q', t ++ [slash, period, period], by simp⟩

theorem hasDotDot_of_end {q q' t : List UInt8}
    (h : q ++ [slash, period, period] = q' ++ slash :: period :: period :: slash :: t) : HasDotDot q := by
  obtain ⟨r, -, hr⟩ | ⟨r, rfl, hr⟩ := List.append_eq_append_iff.1 h
  · have := congrArg List.length hr
    simp at this
    omega
  · refine hasDotDot_iff.2 (.inr ⟨q', r.tail, ?_⟩)
    match r, hr with
    | [], hr => simp at hr
    | [_], hr => simp [slash, period] at hr
    | [_, _], hr => simp [slash, period] at hr
    | [a, b, c], hr =>
      simp only [List.cons_append, List.cons.injEq] at hr
      obtain ⟨rfl, rfl, rfl, -⟩ := hr
      exact ⟨rfl, .inl rfl⟩
    | a :: b :: c :: d :: r, hr =>
      simp only [List.cons_append, List.cons.injEq] at hr
      obtain ⟨rfl, rfl, rfl, rfl, -⟩ := hr
      exact ⟨rfl, .inr ⟨r, rfl⟩⟩

theorem hasDotDot_of_start {q t : List UInt8} (h : q ++ [slash, period, period] = period :: period :: slash :: t) :
    HasDotDot q := by
  refine hasDotDot_iff.2 (.inl ?_)
  match q, h with
  | [], h => simp [slash, period] at h
  | [_], h => simp [slash, period] at h
  | [a, b], h =>
    simp only [List.cons_append, List.cons.injEq] at h
    obtain ⟨rfl, rfl, -⟩ := h
    exact .inl rfl
  | a :: b :: c :: q, h =>
    simp only [List.cons_append, List.cons.injEq] at h
    obtain ⟨rfl, rfl, rfl, -⟩ := h
    exact .inr ⟨q, rfl⟩

theorem dotsBeforeArgs_iff {uri : List UInt8} :
    DotsBeforeArgs uri ↔ percent ∉ cutUri uri ∧ HasDotDot (cutUri uri) ∧ ¬RawRefused uri := by
  constructor
  · rintro ⟨path, args, rfl, hq, hp, h0, h⟩
    rw [cutUri_append_question hq, rawRefused_args hq]
    refine ⟨hp, ?_, ?_⟩
    · obtain rfl | ⟨q, rfl, -⟩ := h
      · exact hasDotDot_iff.2 (.inl (.inl rfl))
      · exact hasDotDot_iff.2 (.inr ⟨q, [period, period], rfl, .inl rfl⟩)
    · rintro (h' | ⟨t, h'⟩ | ⟨q', t, h'⟩)
      · exact h0 h'
      · obtain rfl | ⟨q, rfl, hn⟩ := h
        · simp at h'
        · exact hn (hasDotDot_of_start h')
      · obtain rfl | ⟨q, rfl, hn⟩ := h
        · have := congrArg List.length h'
          simp at this
          omega
        · exact hn (hasDotDot_of_end h')
  · rintro ⟨hp, hd, hr⟩
    obtain hq | ⟨path, args, rfl, hq⟩ := cutUri_cases uri
    · rw [cutUri_plain hq, hasDotDot_iff] at hd
      obtain hd | ⟨q, t, rfl, ht⟩ := hd
      · exact absurd (.inl hd) hr
      · exact absurd (.inr (.inr ⟨q, t, rfl, fun h => hq (by simp [h]), ht⟩)) hr
    · rw [cutUri_append_question hq] at hp hd
      rw [rawRefused_args hq, not_or, not_or] at hr
      obtain ⟨h0, hfirst, hlater⟩ := hr
      refine ⟨path, args, rfl, hq, hp, h0, ?_⟩
      obtain (rfl | h) | ⟨q, t, rfl, rfl | ⟨t, rfl⟩⟩ := hasDotDot_iff.1 hd
      · exact .inl rfl
      · exact absurd h hfirst
      · refine .inr ⟨q, rfl, fun h => ?_⟩
        obtain h | h := h.refused_of_end
        · exact hfirst h
        · exact hlater h
      · exact absurd ⟨q, t, rfl⟩ hlater

/-- A URI is taken for what it is unless its arguments follow a last segment `..`. -/
theorem recognised_iff (uri : List UInt8) : Recognised uri ↔ ¬DotsBeforeArgs uri := by
  rw [recognised_iff_raw, dotsBeforeArgs_iff]

/-- The URI `/..?x` is taken for the path `/..`. -/
theorem dots_not_recognised : ¬Recognised [slash, period, period, question, 120] := by
  intro h
  have hparse : ngxHttpParseUnsafeUri false false (fun _ => 0) [slash, period, period, question, 120] =
      pure ⟨[slash, period, period], some [120]⟩ := by decide
  have hsafe := h false false fun _ => 0
  rw [hparse] at hsafe
  exact hsafe.2.2 ⟨[slash], [], rfl, .inr ⟨[], rfl⟩, .inl rfl⟩

end NginxDtls.UnsafeUri
