import NginxDtls.InetText

/-! Addresses from text: `ngx_inet_addr`, `ngx_inet6_addr`, `ngx_parse_addr` and `ngx_parse_addr_port` of `ngx_inet.c`.
The parser of IPv6 writes the groups one behind the other, and makes room for the zeros of `::` at the end. Memory is not
the subject. -/

namespace NginxDtls

open Text

/-! ### IPv4 -/

/-- The loop of `ngx_inet_addr`. The result is in host order. -/
def inetAddrLoop : List UInt8 → UInt32 → ℕ → ℕ → UInt32
  | [], addr, octet, n => if n = 3 then (addr <<< 8) + UInt32.ofNat octet else inaddrNone
  | c :: text, addr, octet, n =>
    if 48 ≤ c ∧ c ≤ 57 then
      if octet * 10 + (c.toNat - 48) > 255 then inaddrNone
      else inetAddrLoop text addr (octet * 10 + (c.toNat - 48)) n
    else if c = dot then inetAddrLoop text ((addr <<< 8) + UInt32.ofNat octet) 0 (n + 1)
    else inaddrNone

/-- `ngx_inet_addr` -/
def ngxInetAddr (text : List UInt8) : UInt32 := inetAddrLoop text 0 0 0

/-! ### IPv6 -/

/-- The locals of `ngx_inet6_addr`: the bytes at `addr`, which is counted from the first one, and the remaining text at
`digit`. -/
structure Inet6State where
  buf : ℕ → UInt8
  addr : ℕ
  zero : Option ℕ
  digit : Option (List UInt8)
  nibbles : ℕ
  word : ℕ
  n : ℕ

namespace Inet6State

/-- `*addr++ = high; *addr++ = low` -/
def put (st : Inet6State) (high low : UInt8) : Inet6State :=
  { st with buf := Function.update (Function.update st.buf st.addr high) (st.addr + 1) low, addr := st.addr + 2 }

/-- Both bytes of `word`. -/
def putWord (st : Inet6State) : Inet6State := st.put (UInt8.ofNat (st.word / 256)) (UInt8.ofNat (st.word % 256))

end Inet6State

/-- The loop of `ngx_inet6_addr`; `none` is `NGX_ERROR`. -/
def inet6Loop : List UInt8 → Inet6State → Option Inet6State
  | [], st => some st
  | c :: text, st =>
    if c = colon then
      if st.nibbles ≠ 0 then
        if st.n - 1 ≠ 0 then inet6Loop text { st.putWord with digit := some text, n := st.n - 1, nibbles := 0, word := 0 }
        else none
      else if st.zero = none then inet6Loop text { st with digit := some text, zero := some st.addr }
      else none
    else if c = dot ∧ st.nibbles ≠ 0 then
      match st.digit with
      | none => none
      | some digit =>
        if st.n < 2 then none
        else if ngxInetAddr digit = inaddrNone then none
        else some { st.put (ngxInetAddr digit >>> 24).toUInt8 (ngxInetAddr digit >>> 16).toUInt8 with
          word := (ngxInetAddr digit).toNat, n := st.n - 1 }
    else if st.nibbles + 1 > 4 then none
    else if 48 ≤ c ∧ c ≤ 57 then
      inet6Loop text { st with nibbles := st.nibbles + 1, word := st.word * 16 + (c.toNat - 48) }
    else if 97 ≤ c ||| 0x20 ∧ c ||| 0x20 ≤ 102 then
      inet6Loop text { st with nibbles := st.nibbles + 1, word := st.word * 16 + ((c ||| 0x20).toNat - 97) + 10 }
    else none

/-- `while (s >= zero) *d-- = *s--`, with that many bytes from `zero` to `s` and `d` at `n` bytes behind `s`. -/
def shiftUp (z n : ℕ) : ℕ → (ℕ → UInt8) → ℕ → UInt8
  | 0, buf => buf
  | k + 1, buf => shiftUp z n k (Function.update buf (z + k + n) (buf (z + k)))

/-- `ngx_memzero(zero, n)` -/
def memzero (z n : ℕ) (buf : ℕ → UInt8) : ℕ → UInt8 := fun i => if z ≤ i ∧ i < z + n then 0 else buf i

/-- What follows the loop. -/
def inet6Finish (st : Inet6State) : Option (ℕ → UInt8) :=
  if st.nibbles = 0 ∧ st.zero = none then none
  else if st.n - 1 ≠ 0 then
    match st.zero with
    | some z => some (memzero z ((st.n - 1) * 2)
        (shiftUp z ((st.n - 1) * 2) (st.putWord.addr - z) st.putWord.buf))
    | none => none
  else if st.zero = none then some st.putWord.buf
  else none

/-- `ngx_inet6_addr` into the bytes of a buffer. -/
def ngxInet6Addr (text : List UInt8) (buf : ℕ → UInt8) : Option (ℕ → UInt8) :=
  match text with
  | [] => none
  | c :: rest => (inet6Loop (if c = colon then rest else c :: rest) ⟨buf, 0, none, none, 0, 0, 8⟩).bind inet6Finish

/-! ### Socket addresses -/

/-- The bytes of an IPv4 address in network order. -/
def inetBytes (addr : UInt32) : Vector UInt8 4 :=
  #v[(addr >>> 24).toUInt8, (addr >>> 16).toUInt8, (addr >>> 8).toUInt8, addr.toUInt8]

/-- `ngx_parse_addr`; `none` is `NGX_DECLINED`. -/
def ngxParseAddr (text : List UInt8) : Option Sockaddr :=
  if ngxInetAddr text ≠ inaddrNone then some (.inet 0 (inetBytes (ngxInetAddr text)))
  else (ngxInet6Addr text fun _ => 0).map fun buf => .inet6 0 0 (Vector.ofFn fun i => buf i) 0

/-- The loop of `ngx_atoi`; `none` is `NGX_ERROR`. -/
def atoiLoop : List UInt8 → ℕ → Option ℕ
  | [], value => some value
  | c :: line, value =>
    if c < 48 ∨ c > 57 then none
    else if value ≥ (2 ^ 63 - 1) / 10 ∧ (value > (2 ^ 63 - 1) / 10 ∨ c.toNat - 48 > (2 ^ 63 - 1) % 10) then none
    else atoiLoop line (value * 10 + (c.toNat - 48))

def ngxAtoi (line : List UInt8) : Option ℕ := if line = [] then none else atoiLoop line 0

/-- `ngx_inet_set_port` -/
def ngxInetSetPort (sa : Sockaddr) (port : ℕ) : Sockaddr :=
  match sa with
  | .inet _ addr => .inet (UInt16.ofNat port) addr
  | .inet6 _ flowinfo addr scopeId => .inet6 (UInt16.ofNat port) flowinfo addr scopeId
  | .unix path => .unix path

/-- The end of `ngx_parse_addr_port`: the port is the text behind the colon, and the address has `len` bytes together
with the port and its colon. -/
def parsePort (text port : List UInt8) (len : ℕ) : Option Sockaddr :=
  match ngxAtoi port with
  | none => none
  | some n =>
    if n < 1 ∨ n > 65535 then none
    else (ngxParseAddr (text.take (len - (port.length + 1)))).map fun sa => ngxInetSetPort sa n

/-- `ngx_parse_addr_port`; `none` is `NGX_DECLINED`. -/
def ngxParseAddrPort (text : List UInt8) : Option Sockaddr :=
  match ngxParseAddr text with
  | some sa => some sa
  | none =>
    if text.head? = some 91 then
      match text.dropWhile (· ≠ 93) with
      | _ :: 58 :: port => parsePort (text.drop 1) port (text.length - 2)
      | _ => none
    else
      match text.dropWhile (· ≠ colon) with
      | _ :: port => parsePort text port text.length
      | [] => none

/-! ### Reading numbers -/

theorem textNum_cons (b : ℕ) (c : UInt8) (l : List UInt8) :
    textNum b (c :: l) = charDigit c * b ^ l.length + textNum b l := by
  rw [textNum, textNum, List.reverse_cons, List.map_append, Nat.ofDigits_append, List.map_singleton,
    Nat.ofDigits_singleton, List.length_map, List.length_reverse, Nat.add_comm, Nat.mul_comm]

theorem digitChar_decimal {d : ℕ} (hd : d < 10) :
    (48 ≤ digitChar d ∧ digitChar d ≤ 57) ∧ (digitChar d).toNat - 48 = d := by
  interval_cases d <;> decide

theorem digitChar_hex {d : ℕ} (hd : d < 16) (hten : ¬d < 10) :
    ¬(48 ≤ digitChar d ∧ digitChar d ≤ 57) ∧ (97 ≤ digitChar d ||| 0x20 ∧ digitChar d ||| 0x20 ≤ 102) ∧
      ((digitChar d ||| 0x20).toNat - 97) + 10 = d := by
  interval_cases d <;> first | exact absurd (by decide) hten | decide

theorem digitChar_ne {d : ℕ} (hd : d < 16) : digitChar d ≠ colon ∧ digitChar d ≠ dot := by
  interval_cases d <;> decide

theorem atoiLoop_digits {l : List UInt8} (hl : ∀ c ∈ l, ∃ d < 10, c = digitChar d) {value : ℕ}
    (h : value * 10 ^ l.length + textNum 10 l < (2 ^ 63 - 1) / 10) :
    atoiLoop l value = some (value * 10 ^ l.length + textNum 10 l) := by
  induction l generalizing value with
  | nil =>
      show some value = _
      rw [List.length_nil, pow_zero, Nat.mul_one]
      rfl
  | cons c l ih =>
      obtain ⟨d, hd, rfl⟩ := hl c List.mem_cons_self
      obtain ⟨hrange, hdigit⟩ := digitChar_decimal hd
      have hnot : ¬(digitChar d < 48 ∨ digitChar d > 57) := by
        rw [not_or]
        exact ⟨UInt8.not_lt.mpr hrange.1, fun hgt => absurd hrange.2 (UInt8.not_le.mpr hgt)⟩
      rw [textNum_cons, charDigit_digitChar (by omega), List.length_cons, pow_succ] at h
      have hsplit : value * (10 ^ l.length * 10) + (d * 10 ^ l.length + textNum 10 l) =
          (value * 10 + d) * 10 ^ l.length + textNum 10 l := by ring
      rw [hsplit] at h
      have hpos : 1 ≤ 10 ^ l.length := Nat.one_le_pow _ _ (by decide)
      have hvalue : value < (2 ^ 63 - 1) / 10 := by
        have := Nat.le_mul_of_pos_right (value * 10 + d) hpos
        omega
      rw [atoiLoop, if_neg hnot, if_neg (by omega), hdigit, ih (fun c hc => hl c (List.mem_cons_of_mem _ hc)) h,
        textNum_cons, charDigit_digitChar (by omega), List.length_cons, pow_succ, hsplit]

/-- A port is read back. -/
theorem ngxAtoi_sprintfUd {n : ℕ} (hn : n < 65536) : ngxAtoi (sprintfUd n) = some n := by
  rw [ngxAtoi, sprintfUd, if_neg (numText_ne_nil 10 n)]
  have hvalue := textNum_numText (b := 10) (by decide) (by decide) n
  have hdigits := @atoiLoop_digits (numText 10 n) (fun c hc => mem_numText (by decide) hc) 0
    (by rw [Nat.zero_mul, Nat.zero_add, hvalue]; omega)
  rw [hdigits, Nat.zero_mul, Nat.zero_add, hvalue]

/-! ### Reading IPv4 addresses -/

theorem inetAddrLoop_digits {l : List UInt8} (hl : ∀ c ∈ l, ∃ d < 10, c = digitChar d) {octet : ℕ}
    (h : octet * 10 ^ l.length + textNum 10 l ≤ 255) (rest : List UInt8) (addr : UInt32) (n : ℕ) :
    inetAddrLoop (l ++ rest) addr octet n = inetAddrLoop rest addr (octet * 10 ^ l.length + textNum 10 l) n := by
  induction l generalizing octet with
  | nil =>
      rw [List.length_nil, pow_zero, Nat.mul_one]
      rfl
  | cons c l ih =>
      obtain ⟨d, hd, rfl⟩ := hl c List.mem_cons_self
      obtain ⟨hrange, hdigit⟩ := digitChar_decimal hd
      have hsplit : octet * (10 ^ l.length * 10) + (d * 10 ^ l.length + textNum 10 l) =
          (octet * 10 + d) * 10 ^ l.length + textNum 10 l := by ring
      rw [textNum_cons, charDigit_digitChar (by omega), List.length_cons, pow_succ, hsplit] at h ⊢
      have hoctet : octet * 10 + d ≤ 255 := by
        have := Nat.le_mul_of_pos_right (octet * 10 + d) (Nat.one_le_pow l.length 10 (by decide))
        omega
      rw [List.cons_append, inetAddrLoop, if_pos hrange, hdigit, if_neg (by omega)]
      exact ih (fun c hc => hl c (List.mem_cons_of_mem _ hc)) h

theorem inetAddrLoop_octet (a : UInt8) (rest : List UInt8) (addr : UInt32) (n : ℕ) :
    inetAddrLoop (sprintfUd a.toNat ++ rest) addr 0 n = inetAddrLoop rest addr a.toNat n := by
  have hvalue := textNum_numText (b := 10) (by decide) (by decide) a.toNat
  have hlt := a.toNat_lt
  have hdigits := @inetAddrLoop_digits (numText 10 a.toNat) (fun c hc => mem_numText (by decide) hc) 0
    (by rw [Nat.zero_mul, Nat.zero_add, hvalue]; omega) rest addr n
  rwa [Nat.zero_mul, Nat.zero_add, hvalue] at hdigits

/-- The address of four octets. -/
def quadAddr (a b c d : UInt8) : UInt32 :=
  UInt32.ofNat (a.toNat * 16777216 + b.toNat * 65536 + c.toNat * 256 + d.toNat)

theorem quadAddr_toNat (a b c d : UInt8) :
    (quadAddr a b c d).toNat = a.toNat * 16777216 + b.toNat * 65536 + c.toNat * 256 + d.toNat := by
  have ha := a.toNat_lt
  have hb := b.toNat_lt
  have hc := c.toNat_lt
  have hd := d.toNat_lt
  exact UInt32.toNat_ofNat_of_lt' (by show _ < 2 ^ 32; omega)

theorem shift_add (addr : UInt32) (a : UInt8) (h : addr.toNat < 16777216) :
    ((addr <<< 8) + UInt32.ofNat a.toNat).toNat = addr.toNat * 256 + a.toNat := by
  have ha := a.toNat_lt
  have hshift : (addr <<< 8).toNat = addr.toNat * 256 := by
    rw [UInt32.toNat_shiftLeft]
    show addr.toNat <<< 8 % 2 ^ 32 = _
    rw [Nat.shiftLeft_eq, Nat.mod_eq_of_lt (by omega)]
  rw [UInt32.toNat_add, hshift, UInt32.toNat_ofNat_of_lt' (by show a.toNat < 2 ^ 32; omega), Nat.mod_eq_of_lt (by omega)]

theorem ngxInetAddr_sprintfQuad (a b c d : UInt8) : ngxInetAddr (sprintfQuad a b c d) = quadAddr a b c d := by
  have ha := a.toNat_lt
  have hb := b.toNat_lt
  have hc := c.toNat_lt
  have hdot : ¬((48 : UInt8) ≤ dot ∧ dot ≤ (57 : UInt8)) := by decide
  have hstep : ∀ (rest : List UInt8) (addr : UInt32) (octet n : ℕ), inetAddrLoop (dot :: rest) addr octet n =
      inetAddrLoop rest ((addr <<< 8) + UInt32.ofNat octet) 0 (n + 1) := fun rest addr octet n => by
    rw [inetAddrLoop, if_neg hdot, if_pos rfl]
  have hlast := inetAddrLoop_octet d []
  simp only [List.append_nil] at hlast
  rw [ngxInetAddr, sprintfQuad, joinWith, joinWith, joinWith, joinWith, inetAddrLoop_octet, hstep, inetAddrLoop_octet,
    hstep, inetAddrLoop_octet, hstep, hlast, inetAddrLoop, if_pos rfl, ← UInt32.toNat_inj, quadAddr_toNat]
  have h₁ := shift_add 0 a (by decide)
  rw [UInt32.toNat_zero] at h₁
  have h₂ := shift_add _ b (show ((0 : UInt32) <<< 8 + UInt32.ofNat a.toNat).toNat < 16777216 by omega)
  have h₃ := shift_add _ c (show (((0 : UInt32) <<< 8 + UInt32.ofNat a.toNat) <<< 8 + UInt32.ofNat b.toNat).toNat <
    16777216 by omega)
  rw [shift_add _ d (by omega), h₃, h₂, h₁]
  omega

/-- Only one address has the value of the error. -/
theorem quadAddr_eq_none (a b c d : UInt8) :
    quadAddr a b c d = inaddrNone ↔ a = 255 ∧ b = 255 ∧ c = 255 ∧ d = 255 := by
  have ha := a.toNat_lt
  have hb := b.toNat_lt
  have hc := c.toNat_lt
  have hd := d.toNat_lt
  rw [← UInt32.toNat_inj, quadAddr_toNat, ← UInt8.toNat_inj, ← UInt8.toNat_inj, ← UInt8.toNat_inj, ← UInt8.toNat_inj]
  show _ = 4294967295 ↔ a.toNat = 255 ∧ b.toNat = 255 ∧ c.toNat = 255 ∧ d.toNat = 255
  omega

theorem quadAddr_bytes (a b c d : UInt8) : (quadAddr a b c d >>> 24).toUInt8 = a ∧
    (quadAddr a b c d >>> 16).toUInt8 = b ∧ (quadAddr a b c d >>> 8).toUInt8 = c ∧ (quadAddr a b c d).toUInt8 = d := by
  have ha := a.toNat_lt
  have hb := b.toNat_lt
  have hc := c.toNat_lt
  have hd := d.toNat_lt
  have hbyte : ∀ (k : UInt32), (quadAddr a b c d >>> k).toUInt8.toNat =
      (quadAddr a b c d).toNat / 2 ^ (k.toNat % 32) % 256 := fun k => by
    rw [UInt32.toNat_toUInt8, UInt32.toNat_shiftRight, Nat.shiftRight_eq_div_pow]
  have h24 := hbyte 24
  have h16 := hbyte 16
  have h8 := hbyte 8
  rw [quadAddr_toNat] at h24 h16 h8
  refine ⟨UInt8.toNat_inj.mp (h24.trans ?_), UInt8.toNat_inj.mp (h16.trans ?_), UInt8.toNat_inj.mp (h8.trans ?_), ?_⟩
  · show _ / 2 ^ 24 % 256 = _
    omega
  · show _ / 2 ^ 16 % 256 = _
    omega
  · show _ / 2 ^ 8 % 256 = _
    omega
  · rw [← UInt8.toNat_inj, UInt32.toNat_toUInt8, quadAddr_toNat]
    omega

theorem quadAddr_low (a b c d : UInt8) : UInt8.ofNat ((quadAddr a b c d).toNat / 256) = c ∧
    UInt8.ofNat ((quadAddr a b c d).toNat % 256) = d := by
  have hc := c.toNat_lt
  have hd := d.toNat_lt
  rw [quadAddr_toNat]
  refine ⟨UInt8.toNat_inj.mp ?_, UInt8.toNat_inj.mp ?_⟩
  · rw [UInt8.toNat_ofNat']
    omega
  · rw [UInt8.toNat_ofNat']
    omega

/-- A text with a colon is no IPv4 address. -/
theorem inetAddrLoop_colon {text : List UInt8} (h : colon ∈ text) (addr : UInt32) (octet n : ℕ) :
    inetAddrLoop text addr octet n = inaddrNone := by
  induction text generalizing addr octet n with
  | nil => cases h
  | cons c text ih =>
      rw [inetAddrLoop]
      rcases List.mem_cons.mp h with rfl | h
      · rw [if_neg (by decide), if_neg (by decide)]
      · split
        · split
          · rfl
          · exact ih h _ _ _
        · split
          · exact ih h _ _ _
          · rfl

end NginxDtls
