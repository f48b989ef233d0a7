import NginxDtls.Bytes
import NginxDtls.UnsafeUri

/-! The escaping functions of `ngx_string.c` and of the stream log. Each is called twice, first without a buffer for what
the text grows by and then to write it; the two loops are written separately. -/

namespace NginxDtls.Escape

open UnsafeUri

/-! ### Tables of bits -/

/-- `escape[ch >> 5] & (1U << (ch & 0x1f))` -/
def bitSet (escape : List UInt32) (ch : UInt8) : Bool :=
  escape.getD (ch >>> 5).toNat 0 &&& (1 <<< (ch &&& 0x1f).toUInt32) ≠ 0

def hex : ByteArray := "0123456789ABCDEF".toUTF8

/-- `hex[v]` -/
def hexChar (v : UInt8) : UInt8 := hex.data.getD v.toNat 0

/-- The loop that counts the characters to be escaped. -/
def countLoop (escape : List UInt32) : List UInt8 → ℕ → ℕ
  | [], n => n
  | ch :: src, n => countLoop escape src (if bitSet escape ch then n + 1 else n)

/-- The loop that writes them, behind the characters of `lead`. -/
def writeLoop (lead : List UInt8) (escape : List UInt32) : List UInt8 → List UInt8
  | [] => []
  | ch :: src =>
    if bitSet escape ch then lead ++ hexChar (ch >>> 4) :: hexChar (ch &&& 0xf) :: writeLoop lead escape src
    else ch :: writeLoop lead escape src

/-! ### URIs -/

/-- `type` -/
inductive EscapeType where
  | uri
  | args
  | uriComponent
  | html
  | refresh
  | memcached
  | mailAuth
  deriving DecidableEq, Repr

def uri : List UInt32 :=
  [0xffffffff, 0xd000002d, 0x50000000, 0xb8000001, 0xffffffff, 0xffffffff, 0xffffffff, 0xffffffff]

def args : List UInt32 :=
  [0xffffffff, 0xd800086d, 0x50000000, 0xb8000001, 0xffffffff, 0xffffffff, 0xffffffff, 0xffffffff]

def uriComponent : List UInt32 :=
  [0xffffffff, 0xfc009fff, 0x78000001, 0xb8000001, 0xffffffff, 0xffffffff, 0xffffffff, 0xffffffff]

def html : List UInt32 :=
  [0xffffffff, 0x500000ad, 0x50000000, 0xb8000001, 0xffffffff, 0xffffffff, 0xffffffff, 0xffffffff]

def refresh : List UInt32 :=
  [0xffffffff, 0x50000085, 0x50000000, 0xd8000001, 0xffffffff, 0xffffffff, 0xffffffff, 0xffffffff]

def memcached : List UInt32 :=
  [0xffffffff, 0x00000021, 0x00000000, 0x00000000, 0x00000000, 0x00000000, 0x00000000, 0x00000000]

/-- `map` -/
def EscapeType.map : EscapeType → List UInt32
  | .uri => Escape.uri
  | .args => Escape.args
  | .uriComponent => Escape.uriComponent
  | .html => Escape.html
  | .refresh => Escape.refresh
  | .memcached => Escape.memcached
  | .mailAuth => Escape.memcached

/-- `ngx_escape_uri` without a buffer. -/
def ngxEscapeUriCount (type : EscapeType) (src : List UInt8) : ℕ := countLoop type.map src 0

def ngxEscapeUri (type : EscapeType) (src : List UInt8) : List UInt8 := writeLoop [percent] type.map src

/-! ### HTML -/

/-- `ngx_escape_html` without a buffer. -/
def escapeHtmlLen : List UInt8 → ℕ → ℕ
  | [], len => len
  | ch :: src, len =>
    if ch = 60 then escapeHtmlLen src (len + (5 - 2))
    else if ch = 62 then escapeHtmlLen src (len + (5 - 2))
    else if ch = 38 then escapeHtmlLen src (len + (6 - 2))
    else if ch = 34 then escapeHtmlLen src (len + (7 - 2))
    else escapeHtmlLen src len

def ngxEscapeHtmlLen (src : List UInt8) : ℕ := escapeHtmlLen src 0

def ngxEscapeHtml : List UInt8 → List UInt8
  | [] => []
  | ch :: src =>
    if ch = 60 then 38 :: 108 :: 116 :: 59 :: ngxEscapeHtml src
    else if ch = 62 then 38 :: 103 :: 116 :: 59 :: ngxEscapeHtml src
    else if ch = 38 then 38 :: 97 :: 109 :: 112 :: 59 :: ngxEscapeHtml src
    else if ch = 34 then 38 :: 113 :: 117 :: 111 :: 116 :: 59 :: ngxEscapeHtml src
    else ch :: ngxEscapeHtml src

/-! ### JSON -/

/-- The second digit of a code. -/
def codeDigit (ch : UInt8) : UInt8 := if ch < 10 then 48 + ch else 65 + ch - 10

/-- What is written behind the backslash for a control character: `n`, `r`, `t`, `b`, `f`, or its code. -/
def controlEscape (ch : UInt8) : List UInt8 :=
  if ch = 10 then [110]
  else if ch = 13 then [114]
  else if ch = 9 then [116]
  else if ch = 8 then [98]
  else if ch = 12 then [102]
  else ([117, 48, 48, (48 : UInt8) + (ch >>> 4), codeDigit (ch &&& 0xf)] : List UInt8)

/-- `ngx_escape_json` without a buffer. -/
def escapeJsonLen : List UInt8 → ℕ → ℕ
  | [], len => len
  | ch :: src, len =>
    if ch = 92 ∨ ch = 34 then escapeJsonLen src (len + 1)
    else if ch ≤ 0x1f then
      if ch = 10 ∨ ch = 13 ∨ ch = 9 ∨ ch = 8 ∨ ch = 12 then escapeJsonLen src (len + 1)
      else escapeJsonLen src (len + (7 - 2))
    else escapeJsonLen src len

def ngxEscapeJsonLen (src : List UInt8) : ℕ := escapeJsonLen src 0

def ngxEscapeJson : List UInt8 → List UInt8
  | [] => []
  | ch :: src =>
    if ch > 0x1f then (if ch = 92 ∨ ch = 34 then [92] else []) ++ ch :: ngxEscapeJson src
    else 92 :: (controlEscape ch ++ ngxEscapeJson src)

/-! ### The stream log -/

/-- `escape` of `ngx_stream_log_escape` -/
def logEscape : List UInt32 :=
  [0xffffffff, 0x00000004, 0x10000000, 0x80000000, 0xffffffff, 0xffffffff, 0xffffffff, 0xffffffff]

/-- `ngx_stream_log_escape` without a buffer. -/
def ngxStreamLogEscapeCount (src : List UInt8) : ℕ := countLoop logEscape src 0

def ngxStreamLogEscape (src : List UInt8) : List UInt8 := writeLoop [92, 120] logEscape src

/-- `ngx_stream_variable_value_t`; `none` of a value is no value, or one that is not found. -/
structure VariableValue where
  data : List UInt8
  escape : Bool

/-- `ngx_stream_log_variable_getlen`, which marks a value that has something to escape. -/
def ngxStreamLogVariableGetlen : Option VariableValue → ℕ × Option VariableValue
  | none => (1, none)
  | some value =>
    let len := ngxStreamLogEscapeCount value.data
    (value.data.length + len * 3, some { value with escape := len ≠ 0 })

def ngxStreamLogVariable : Option VariableValue → List UInt8
  | none => [45]
  | some value => if value.escape then ngxStreamLogEscape value.data else value.data

def ngxStreamLogJsonVariableGetlen : Option VariableValue → ℕ × Option VariableValue
  | none => (0, none)
  | some value =>
    let len := ngxEscapeJsonLen value.data
    (value.data.length + len, some { value with escape := len ≠ 0 })

def ngxStreamLogJsonVariable : Option VariableValue → List UInt8
  | none => []
  | some value => if value.escape then ngxEscapeJson value.data else value.data

/-! ### What the escaped text means -/

/-- The text of a page with the four entities read as their characters. -/
def decodeHtml : List UInt8 → List UInt8
  | 38 :: 108 :: 116 :: 59 :: text => 60 :: decodeHtml text
  | 38 :: 103 :: 116 :: 59 :: text => 62 :: decodeHtml text
  | 38 :: 97 :: 109 :: 112 :: 59 :: text => 38 :: decodeHtml text
  | 38 :: 113 :: 117 :: 111 :: 116 :: 59 :: text => 34 :: decodeHtml text
  | ch :: text => ch :: decodeHtml text
  | [] => []

/-- The character behind a backslash in JSON, other than `u`. -/
def jsonEscape (ch : UInt8) : Option UInt8 :=
  if ch = 34 ∨ ch = 92 ∨ ch = 47 then some ch
  else if ch = 98 then some 8 else if ch = 102 then some 12 else if ch = 110 then some 10
  else if ch = 114 then some 13 else if ch = 116 then some 9 else none

/-- The number of four hexadecimal digits. -/
def jsonCode (a b c d : UInt8) : Option ℕ := do
  let a ← hexDigit a
  let b ← hexDigit b
  let c ← hexDigit c
  let d ← hexDigit d
  pure (((a.toNat * 16 + b.toNat) * 16 + c.toNat) * 16 + d.toNat)

/-- The text between the quotes of a JSON string, and the bytes that it denotes. -/
inductive JsonBody : List UInt8 → List UInt8 → Prop
  | nil : JsonBody [] []
  | char {ch : UInt8} {text bytes : List UInt8} (hchar : 0x20 ≤ ch ∧ ch ≠ 34 ∧ ch ≠ 92) (htext : JsonBody text bytes) :
      JsonBody (ch :: text) (ch :: bytes)
  | escape {ch c : UInt8} {text bytes : List UInt8} (hescape : jsonEscape ch = some c) (htext : JsonBody text bytes) :
      JsonBody (92 :: ch :: text) (c :: bytes)
  | code {a b c d : UInt8} {code : ℕ} {text bytes : List UInt8} (hcode : jsonCode a b c d = some code)
      (hscalar : code < 0xD800 ∨ 0xE000 ≤ code) (htext : JsonBody text bytes) :
      JsonBody (92 :: 117 :: a :: b :: c :: d :: text) (String.utf8EncodeChar (Char.ofNat code) ++ bytes)

/-! ### Tables of bits, byte by byte -/

theorem countLoop_eq (escape : List UInt32) (src : List UInt8) (n : ℕ) :
    countLoop escape src n = n + src.countP (bitSet escape) := by
  induction src generalizing n with
  | nil => rfl
  | cons ch src ih =>
      rw [countLoop, ih, List.countP_cons]
      split <;> omega

/-- Every counted character grows by two digits and what leads them, less the character itself. -/
theorem writeLoop_length (lead : List UInt8) (escape : List UInt32) (src : List UInt8) :
    (writeLoop lead escape src).length = src.length + countLoop escape src 0 * (lead.length + 1) := by
  rw [countLoop_eq, Nat.zero_add]
  induction src with
  | nil => simp [writeLoop]
  | cons ch src ih =>
      rw [writeLoop, List.countP_cons]
      split
      · rw [List.length_append, List.length_cons, List.length_cons, List.length_cons, ih]
        ring
      · rw [List.length_cons, List.length_cons, ih]
        ring

/-- The two digits of a byte. -/
theorem hexChar_byte (ch : UInt8) : hexDigit (hexChar (ch >>> 4)) = some (ch >>> 4) ∧
    hexDigit (hexChar (ch &&& 0xf)) = some (ch &&& 0xf) ∧ ((ch >>> 4) <<< 4) + (ch &&& 0xf) = ch := by
  revert ch
  apply forall_byte
  decide +kernel

/-- What is written for a byte is read as that byte, if `%` does not stand for itself. -/
theorem unescapeLoop_writeLoop {escape : List UInt32} (hpercent : bitSet escape percent = true) (src : List UInt8)
    (decoded : UInt8) : unescapeLoop (writeLoop [percent] escape src) .usual decoded = src := by
  induction src generalizing decoded with
  | nil => rfl
  | cons ch src ih =>
      obtain ⟨hhigh, hlow, hbyte⟩ := hexChar_byte ch
      rw [writeLoop]
      split
      · rw [List.cons_append, List.nil_append, unescapeLoop, if_pos rfl, unescapeLoop, hhigh]
        show unescapeLoop (hexChar (ch &&& 0xf) :: _) .quotedSecond (ch >>> 4) = _
        rw [unescapeLoop, hlow]
        show (((ch >>> 4) <<< 4) + (ch &&& 0xf)) :: unescapeLoop _ .usual (ch >>> 4) = _
        rw [hbyte, ih]
      · rename_i hbit
        have hne : ch ≠ percent := by
          rintro rfl
          exact hbit hpercent
        rw [unescapeLoop, if_neg hne, ih]

/-! ### HTML and JSON, byte by byte -/

theorem ngxEscapeHtml_length (src : List UInt8) (len : ℕ) :
    (ngxEscapeHtml src).length + len = src.length + escapeHtmlLen src len := by
  induction src generalizing len with
  | nil => simp [ngxEscapeHtml, escapeHtmlLen]
  | cons ch src ih =>
      rw [ngxEscapeHtml, escapeHtmlLen]
      split
      · simp only [List.length_cons]
        have := ih (len + (5 - 2))
        omega
      · split
        · simp only [List.length_cons]
          have := ih (len + (5 - 2))
          omega
        · split
          · simp only [List.length_cons]
            have := ih (len + (6 - 2))
            omega
          · split
            · simp only [List.length_cons]
              have := ih (len + (7 - 2))
              omega
            · simp only [List.length_cons]
              have := ih len
              omega

theorem ngxEscapeHtml_safe (src : List UInt8) : ∀ c ∈ ngxEscapeHtml src, c ≠ 60 ∧ c ≠ 62 ∧ c ≠ 34 := by
  induction src with
  | nil => exact fun c hc => absurd hc List.not_mem_nil
  | cons ch src ih =>
      rw [ngxEscapeHtml]
      split_ifs with hlt hgt hamp hquot
      · simpa only [List.forall_mem_cons] using ⟨by decide, by decide, by decide, by decide, ih⟩
      · simpa only [List.forall_mem_cons] using ⟨by decide, by decide, by decide, by decide, ih⟩
      · simpa only [List.forall_mem_cons] using ⟨by decide, by decide, by decide, by decide, by decide, ih⟩
      · simpa only [List.forall_mem_cons] using
          ⟨by decide, by decide, by decide, by decide, by decide, by decide, ih⟩
      · exact List.forall_mem_cons.mpr ⟨⟨hlt, hgt, hquot⟩, ih⟩

theorem decodeHtml_char {ch : UInt8} (hamp : ch ≠ 38) (text : List UInt8) :
    decodeHtml (ch :: text) = ch :: decodeHtml text := by
  rw [decodeHtml.eq_def]
  split <;> simp_all

theorem decodeHtml_escape (src : List UInt8) : decodeHtml (ngxEscapeHtml src) = src := by
  induction src with
  | nil => rfl
  | cons ch src ih =>
      rw [ngxEscapeHtml]
      split_ifs with hlt hgt hamp hquot
      · rw [decodeHtml, ih, hlt]
      · rw [decodeHtml, ih, hgt]
      · rw [decodeHtml, ih, hamp]
      · rw [decodeHtml, ih, hquot]
      · rw [decodeHtml_char hamp, ih]

/-- A control character that has a letter. -/
abbrev HasLetter (ch : UInt8) : Prop := ch = 10 ∨ ch = 13 ∨ ch = 9 ∨ ch = 8 ∨ ch = 12

theorem controlEscape_letter {ch : UInt8} (h : HasLetter ch) : ∃ c, controlEscape ch = [c] ∧ jsonEscape c = some ch := by
  rcases h with rfl | rfl | rfl | rfl | rfl
  · exact ⟨110, rfl, rfl⟩
  · exact ⟨114, rfl, rfl⟩
  · exact ⟨116, rfl, rfl⟩
  · exact ⟨98, rfl, rfl⟩
  · exact ⟨102, rfl, rfl⟩

theorem controlEscape_code (ch : UInt8) : ¬HasLetter ch → ¬ch > 0x1f →
    controlEscape ch = ([117, 48, 48, (48 : UInt8) + (ch >>> 4), codeDigit (ch &&& 0xf)] : List UInt8) ∧
      jsonCode 48 48 ((48 : UInt8) + (ch >>> 4)) (codeDigit (ch &&& 0xf)) = some ch.toNat ∧
      String.utf8EncodeChar (Char.ofNat ch.toNat) = [ch] := by
  revert ch
  apply forall_byte
  decide +kernel

theorem not_special {ch : UInt8} (h : ¬ch > 0x1f) : ¬(ch = 92 ∨ ch = 34) := by
  rintro (rfl | rfl)
  · exact h (by decide)
  · exact h (by decide)

theorem ngxEscapeJson_length (src : List UInt8) (len : ℕ) :
    (ngxEscapeJson src).length + len = src.length + escapeJsonLen src len := by
  induction src generalizing len with
  | nil => simp [ngxEscapeJson, escapeJsonLen]
  | cons ch src ih =>
      rw [ngxEscapeJson, escapeJsonLen]
      by_cases hcontrol : ch > 0x1f
      · rw [if_pos hcontrol, if_neg (UInt8.not_le.mpr hcontrol)]
        by_cases hspecial : ch = 92 ∨ ch = 34
        · rw [if_pos hspecial, if_pos hspecial]
          have := ih (len + 1)
          simp only [List.length_cons, List.cons_append, List.nil_append]
          omega
        · rw [if_neg hspecial, if_neg hspecial]
          have := ih len
          simp only [List.length_cons, List.nil_append]
          omega
      · rw [if_neg hcontrol, if_neg (not_special hcontrol), if_pos (UInt8.not_lt.mp hcontrol)]
        by_cases hletter : HasLetter ch
        · obtain ⟨c, hc, -⟩ := controlEscape_letter hletter
          rw [if_pos hletter, hc]
          have := ih (len + 1)
          simp only [List.length_cons, List.cons_append, List.nil_append]
          omega
        · obtain ⟨hcode, -, -⟩ := controlEscape_code ch hletter hcontrol
          rw [if_neg hletter, hcode]
          have := ih (len + (7 - 2))
          simp only [List.length_cons, List.cons_append, List.nil_append]
          omega

theorem ngxEscapeJson_body (src : List UInt8) : JsonBody (ngxEscapeJson src) src := by
  induction src with
  | nil => exact .nil
  | cons ch src ih =>
      rw [ngxEscapeJson]
      by_cases hcontrol : ch > 0x1f
      · rw [if_pos hcontrol]
        by_cases hspecial : ch = 92 ∨ ch = 34
        · rw [if_pos hspecial]
          refine .escape ?_ ih
          rw [jsonEscape]
          rcases hspecial with rfl | rfl
          · rfl
          · rfl
        · rw [if_neg hspecial]
          obtain ⟨hbackslash, hquote⟩ := not_or.mp hspecial
          exact .char ⟨UInt8.le_iff_toNat_le.mpr (UInt8.lt_iff_toNat_lt.mp hcontrol), hquote, hbackslash⟩ ih
      · rw [if_neg hcontrol]
        by_cases hletter : HasLetter ch
        · obtain ⟨c, hc, hescape⟩ := controlEscape_letter hletter
          rw [hc]
          exact .escape hescape ih
        · obtain ⟨hescape, hcode, hutf8⟩ := controlEscape_code ch hletter hcontrol
          have hsmall : ch.toNat < 0xD800 := ch.toNat_lt.trans (by decide)
          have hbody := JsonBody.code hcode (.inl hsmall) ih
          rw [hutf8] at hbody
          rw [hescape]
          exact hbody

/-! ### Both loops -/

/-- What the stream log asks for a variable is what it writes. -/
theorem ngxStreamLogVariable_length (value : Option VariableValue) :
    (ngxStreamLogVariable (ngxStreamLogVariableGetlen value).2).length = (ngxStreamLogVariableGetlen value).1 := by
  cases value with
  | none => rfl
  | some value =>
      have hwrite : (ngxStreamLogEscape value.data).length =
          value.data.length + ngxStreamLogEscapeCount value.data * 3 := writeLoop_length _ _ _
      show (if decide (ngxStreamLogEscapeCount value.data ≠ 0) then _ else _ : List UInt8).length = _
      by_cases hcount : ngxStreamLogEscapeCount value.data = 0
      · simp [hcount, ngxStreamLogVariableGetlen]
      · simp [hcount, ngxStreamLogVariableGetlen, hwrite]

theorem ngxStreamLogJsonVariable_length (value : Option VariableValue) :
    (ngxStreamLogJsonVariable (ngxStreamLogJsonVariableGetlen value).2).length =
      (ngxStreamLogJsonVariableGetlen value).1 := by
  cases value with
  | none => rfl
  | some value =>
      have hwrite : (ngxEscapeJson value.data).length = value.data.length + ngxEscapeJsonLen value.data :=
        ngxEscapeJson_length value.data 0
      show (if decide (ngxEscapeJsonLen value.data ≠ 0) then _ else _ : List UInt8).length = _
      by_cases hcount : ngxEscapeJsonLen value.data = 0
      · simp [hcount, ngxStreamLogJsonVariableGetlen]
      · simp [hcount, ngxStreamLogJsonVariableGetlen, hwrite]

/-- Every escaping grows a string by what its sizing call says, with the factor that its callers use, and what comes out
stands for the string: `ngx_unescape_uri` of the type 0, a reader of JSON and a reader of entities find it again. -/
theorem escape_exact_reversible :
    (∀ type src, (ngxEscapeUri type src).length = src.length + 2 * ngxEscapeUriCount type src) ∧
      (∀ src, (ngxEscapeHtml src).length = src.length + ngxEscapeHtmlLen src) ∧
      (∀ src, (ngxEscapeJson src).length = src.length + ngxEscapeJsonLen src) ∧
      (∀ src, (ngxStreamLogEscape src).length = src.length + ngxStreamLogEscapeCount src * 3) ∧
      (∀ value, (ngxStreamLogVariable (ngxStreamLogVariableGetlen value).2).length =
        (ngxStreamLogVariableGetlen value).1) ∧
      (∀ value, (ngxStreamLogJsonVariable (ngxStreamLogJsonVariableGetlen value).2).length =
        (ngxStreamLogJsonVariableGetlen value).1) ∧
      (∀ type : EscapeType, bitSet type.map percent → ∀ src, ngxUnescapeUri (ngxEscapeUri type src) = src) ∧
      (∀ src, JsonBody (ngxEscapeJson src) src) ∧
      ∀ src, (∀ c ∈ ngxEscapeHtml src, c ≠ 60 ∧ c ≠ 62 ∧ c ≠ 34) ∧ decodeHtml (ngxEscapeHtml src) = src := by
  refine ⟨?_, fun src => ngxEscapeHtml_length src 0, fun src => ngxEscapeJson_length src 0, fun src => writeLoop_length _ _ _,
    ngxStreamLogVariable_length, ngxStreamLogJsonVariable_length, ?_, ngxEscapeJson_body,
    fun src => ⟨ngxEscapeHtml_safe src, decodeHtml_escape src⟩⟩
  · intro type src
    rw [Nat.mul_comm]
    exact writeLoop_length [percent] type.map src
  · intro type hpercent src
    exact unescapeLoop_writeLoop hpercent src 0

end NginxDtls.Escape
