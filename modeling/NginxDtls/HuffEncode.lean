import NginxDtls.HuffDecode
import NginxDtls.Resolver

/-! The encoder of `ngx_http_v2_huff_encode.c`, which collects bits at the top of a word of 64, and its round trip with the
decoder. -/

namespace NginxDtls.Huff

open PrefixCode BitString

/-- Between two bytes of the source: `buf`, `pending`, and what is written to `dst`. -/
structure Encoder where
  buf : ℕ
  pending : ℕ
  dst : List UInt8

/-- The loop over the source, none where it returns 0. -/
def encodeLoop (len : ℕ) (table : List EncodeCode) : Encoder → List UInt8 → Option Encoder
  | e, [] => some e
  | e, c :: src =>
    let next := table.getD c.toNat ⟨0, 0⟩
    let pending := e.pending + next.len
    if pending < 64 then
      encodeLoop len table { e with buf := e.buf ||| (next.code <<< (64 - pending)) % 2 ^ 64, pending := pending } src
    else if e.dst.length + 8 ≥ len then none
    else
      let pending := pending - 64
      let buf := e.buf ||| next.code >>> pending
      encodeLoop len table
        ⟨if pending ≠ 0 then (next.code <<< (64 - pending)) % 2 ^ 64 else 0, pending, e.dst ++ putBytes 8 buf⟩ src

/-- `ngx_align(pending, 8)` -/
def align8 (n : ℕ) : ℕ := (n + 7) / 8 * 8

/-- The bytes that are written to `dst`, none for 0. -/
def encodeWith (table : List EncodeCode) (src : List UInt8) : List UInt8 :=
  match encodeLoop src.length table ⟨0, 0, []⟩ src with
  | none => []
  | some e =>
    if e.pending = 0 then e.dst
    else
      let buf := e.buf ||| (2 ^ 64 - 1) >>> e.pending
      let pending := align8 e.pending
      if e.dst.length + pending / 8 ≥ src.length then []
      else e.dst ++ putBytes (pending / 8) (buf >>> (64 - pending))

def ngxHttpV2HuffEncode (src : List UInt8) (lower : Bool) : List UInt8 :=
  encodeWith (if lower then ngxHttpV2HuffEncodeTableLc else ngxHttpV2HuffEncodeTable) src

/-! ### The bits -/

/-- The code that a table has for a byte. -/
def tableCode (table : List EncodeCode) (c : UInt8) : List Bool :=
  let code := table.getD c.toNat ⟨0, 0⟩
  bitsOf code.len code.code

/-- The codes fit their lengths, and a word has room for more than one. -/
def Fits (table : List EncodeCode) : Prop :=
  ∀ c : UInt8, (table.getD c.toNat ⟨0, 0⟩).code < 2 ^ (table.getD c.toNat ⟨0, 0⟩).len ∧
    0 < (table.getD c.toNat ⟨0, 0⟩).len ∧ (table.getD c.toNat ⟨0, 0⟩).len < 64

/-- The word has some bits at its top. -/
structure Encoder.Has (e : Encoder) (bits : List Bool) : Prop where
  pending : bits.length = e.pending
  lt : e.pending < 64
  buf : e.buf = value bits * 2 ^ (64 - e.pending)

variable {table : List EncodeCode} {e : Encoder} {bits : List Bool} {code len : ℕ}

/-- A code that fits in the word. -/
theorem Encoder.Has.add (h : e.Has bits) (hcode : code < 2 ^ len) (hlt : e.pending + len < 64) :
    e.buf ||| (code <<< (64 - (e.pending + len))) % 2 ^ 64 =
      value (bits ++ bitsOf len code) * 2 ^ (64 - (e.pending + len)) := by
  obtain ⟨r, hr⟩ : ∃ r, 64 = e.pending + len + r := ⟨64 - (e.pending + len), by omega⟩
  have hsub : 64 - (e.pending + len) = r := by omega
  have hsub' : 64 - e.pending = len + r := by omega
  have hshift : code * 2 ^ r < 2 ^ (len + r) := by
    rw [pow_add]
    exact Nat.mul_lt_mul_of_pos_right hcode (Nat.two_pow_pos r)
  have hfit : code * 2 ^ r < 2 ^ 64 := hshift.trans_le (Nat.pow_le_pow_right Nat.two_pos (by omega))
  rw [hsub, Nat.shiftLeft_eq, Nat.mod_eq_of_lt hfit, h.buf, hsub', or_below hshift, value_append, length_bitsOf, value_bitsOf,
    Nat.mod_eq_of_lt hcode, pow_add]
  ring

/-- A code that fills the word: its first bits go there, and the rest is left. -/
theorem Encoder.Has.fill (h : e.Has bits) (hcode : code < 2 ^ len) (hge : ¬e.pending + len < 64) (hlen : len < 64) :
    let pending := e.pending + len - 64
    bitsOf 64 (e.buf ||| code >>> pending) ++ bitsOf pending code = bits ++ bitsOf len code ∧
    (if pending ≠ 0 then (code <<< (64 - pending)) % 2 ^ 64 else 0) = value (bitsOf pending code) * 2 ^ (64 - pending) := by
  intro pending
  have hlt := h.lt
  obtain ⟨r, hr⟩ : ∃ r, len = r + pending := ⟨64 - e.pending, by omega⟩
  have hsub : 64 - e.pending = r := by omega
  have hhigh : code / 2 ^ pending < 2 ^ r := by
    rw [Nat.div_lt_iff_lt_mul (Nat.two_pow_pos pending), ← pow_add, ← hr]
    exact hcode
  constructor
  · have hbits : (bits ++ bitsOf r (code / 2 ^ pending)).length = 64 := by
      rw [List.length_append, length_bitsOf, h.pending]
      omega
    have hvalue : e.buf ||| code >>> pending = value (bits ++ bitsOf r (code / 2 ^ pending)) := by
      rw [Nat.shiftRight_eq_div_pow, h.buf, hsub, or_below hhigh, value_append, length_bitsOf, value_bitsOf,
        Nat.mod_eq_of_lt hhigh]
    rw [hvalue, ← hbits, bitsOf_value, List.append_assoc, ← bitsOf_append, ← hr]
  · rw [value_bitsOf]
    split_ifs with hzero
    · have hpow : 2 ^ 64 = 2 ^ pending * 2 ^ (64 - pending) := by
        rw [← pow_add, Nat.add_sub_of_le (by omega)]
      rw [Nat.shiftLeft_eq, hpow, Nat.mul_mod_mul_right]
    · rw [not_not.mp hzero, pow_zero, Nat.mod_one, Nat.zero_mul]

theorem encodeLoop_eq (hfits : Fits table) (n : ℕ) (src : List UInt8) (h : e.Has bits) :
    match encodeLoop n table e src with
    | none => 8 * n ≤ (bytesBits e.dst ++ bits ++ src.flatMap (tableCode table)).length
    | some e' => ∃ bits', e'.Has bits' ∧ (e'.dst = e.dst ∨ e'.dst.length < n) ∧
        bytesBits e'.dst ++ bits' = bytesBits e.dst ++ bits ++ src.flatMap (tableCode table) := by
  induction src generalizing e bits with
  | nil => exact ⟨bits, h, .inl rfl, by rw [List.flatMap_nil, List.append_nil]⟩
  | cons c src ih =>
      obtain ⟨hcode, hpos, hlen⟩ := hfits c
      have hbits : (c :: src).flatMap (tableCode table) =
          bitsOf (table.getD c.toNat ⟨0, 0⟩).len (table.getD c.toNat ⟨0, 0⟩).code ++ src.flatMap (tableCode table) :=
        List.flatMap_cons
      rw [hbits]
      simp only [encodeLoop]
      generalize table.getD c.toNat ⟨0, 0⟩ = next at hcode hpos hlen ⊢
      by_cases hlt : e.pending + next.len < 64
      · rw [if_pos hlt]
        have hadd := @ih ⟨_, e.pending + next.len, e.dst⟩ (bits ++ bitsOf next.len next.code)
          ⟨by rw [List.length_append, length_bitsOf, h.pending], hlt, h.add hcode hlt⟩
        rw [← List.append_assoc, List.append_assoc _ bits]
        exact hadd
      · obtain ⟨hfill, hrest⟩ := h.fill hcode hlt hlen
        have hcount := h.pending
        rw [if_neg hlt]
        by_cases hfull : e.dst.length + 8 ≥ n
        · rw [if_pos hfull]
          show 8 * n ≤ _
          rw [List.length_append, List.length_append, length_bytesBits, List.length_append, length_bitsOf]
          omega
        · rw [if_neg hfull]
          generalize hpending : e.pending + next.len - 64 = pending at hfill hrest ⊢
          have hroom : pending < 64 := by
            have := h.lt
            omega
          have htail := ih (e := ⟨if pending ≠ 0 then (next.code <<< (64 - pending)) % 2 ^ 64 else 0, pending,
            e.dst ++ putBytes 8 (e.buf ||| next.code >>> pending)⟩) ⟨length_bitsOf pending next.code, hroom, hrest⟩
          have hdst : bytesBits (e.dst ++ putBytes 8 (e.buf ||| next.code >>> pending)) ++ bitsOf pending next.code =
              bytesBits e.dst ++ bits ++ bitsOf next.len next.code := by
            rw [bytesBits_append, bytesBits_putBytes, List.append_assoc, List.append_assoc]
            exact congrArg _ hfill
          rw [← List.append_assoc, ← hdst]
          cases hloop : encodeLoop n table _ src with
          | none =>
              rw [hloop] at htail
              exact htail
          | some e' =>
              rw [hloop] at htail
              obtain ⟨bits', hhas, hlength, heq⟩ := htail
              refine ⟨bits', hhas, .inr ?_, heq⟩
              rcases hlength with hsame | hless
              · rw [hsame, List.length_append, length_putBytes]
                omega
              · exact hless

theorem mul_sub_one_div {a b : ℕ} (ha : 0 < a) (hb : 0 < b) : (a * b - 1) / b = a - 1 := by
  obtain ⟨n, rfl⟩ : ∃ n, a = n + 1 := ⟨a - 1, by omega⟩
  have hsplit : (n + 1) * b - 1 = b * n + (b - 1) := by
    rw [Nat.add_mul, Nat.one_mul, Nat.mul_comm n b]
    omega
  rw [hsplit, Nat.mul_add_div hb, Nat.div_eq_of_lt (by omega), Nat.add_zero, Nat.add_sub_cancel]

/-- The ones that are put behind the bits. -/
theorem Encoder.Has.ones (h : e.Has bits) {n : ℕ} (hle : e.pending ≤ n) (hn : n ≤ 64) :
    (e.buf ||| (2 ^ 64 - 1) >>> e.pending) >>> (64 - n) = value (bits ++ List.replicate (n - e.pending) true) := by
  have hlt := h.lt
  have hpow : (2 : ℕ) ^ 64 = 2 ^ (64 - e.pending) * 2 ^ e.pending := by
    rw [← pow_add, Nat.sub_add_cancel hlt.le]
  have hones : (2 ^ 64 - 1) >>> e.pending = value (List.replicate (64 - e.pending) true) := by
    rw [value_replicate_true, Nat.shiftRight_eq_div_pow, hpow]
    exact mul_sub_one_div (Nat.two_pow_pos _) (Nat.two_pow_pos _)
  have hbelow := value_lt (List.replicate (64 - e.pending) true)
  rw [List.length_replicate] at hbelow
  have hall : e.buf ||| (2 ^ 64 - 1) >>> e.pending = value (bits ++ List.replicate (64 - e.pending) true) := by
    rw [hones, h.buf, or_below hbelow, value_append, List.length_replicate]
  have hsplit : List.replicate (64 - e.pending) true =
      List.replicate (n - e.pending) true ++ List.replicate (64 - n) true := by
    rw [← List.replicate_add]
    congr 1
    omega
  have hlow := value_lt (List.replicate (64 - n) true)
  rw [List.length_replicate] at hlow
  rw [hall, hsplit, ← List.append_assoc, value_append, List.length_replicate, Nat.shiftRight_eq_div_pow, Nat.mul_comm,
    Nat.mul_add_div (Nat.two_pow_pos _), Nat.div_eq_of_lt hlow, Nat.add_zero]

theorem fits_of_all (hlen : table.length = 256)
    (hall : (table.all fun code => decide (code.code < 2 ^ code.len ∧ 0 < code.len ∧ code.len < 64)) = true) : Fits table := by
  intro c
  have hc : c.toNat < table.length := by
    rw [hlen]
    exact c.toNat_lt
  rw [List.getD_eq_getElem _ _ hc]
  exact of_decide_eq_true (List.all_eq_true.mp hall _ (List.getElem_mem hc))

theorem tables_fit (lower : Bool) : Fits (if lower then ngxHttpV2HuffEncodeTableLc else ngxHttpV2HuffEncodeTable) := by
  cases lower
  · exact fits_of_all (by decide +kernel) (by decide +kernel)
  · exact fits_of_all (by decide +kernel) (by decide +kernel)

/-- **What the encoder writes.** The bits of the codes and less than eight ones behind them, if these are fewer bytes than the
source has, and else nothing. -/
theorem encodeWith_eq (hfits : Fits table) (src : List UInt8) :
    let bits := src.flatMap (tableCode table)
    if (bits.length + 7) / 8 < src.length then
      bytesBits (encodeWith table src) = bits ++ List.replicate (8 * ((bits.length + 7) / 8) - bits.length) true
    else encodeWith table src = [] := by
  intro bits
  have hstart : Encoder.Has ⟨0, 0, []⟩ [] := ⟨rfl, by decide, rfl⟩
  have hloop := encodeLoop_eq hfits src.length src hstart
  rw [encodeWith]
  cases hencode : encodeLoop src.length table ⟨0, 0, []⟩ src with
  | none =>
      rw [hencode] at hloop
      have hlong : 8 * src.length ≤ bits.length := hloop
      rw [if_neg (by omega)]
  | some e =>
      rw [hencode] at hloop
      obtain ⟨bits', hhas, hdst, heq⟩ := hloop
      replace heq : bytesBits e.dst ++ bits' = bits := heq
      have hlen := congrArg List.length heq
      rw [List.length_append, length_bytesBits, hhas.pending] at hlen
      have hlt := hhas.lt
      have halign : align8 e.pending = (e.pending + 7) / 8 * 8 := rfl
      simp only
      by_cases hzero : e.pending = 0
      · have hnil : bits' = [] := List.length_eq_zero_iff.mp (hhas.pending.trans hzero)
        rw [hnil, List.append_nil] at heq
        have hcount : (bits.length + 7) / 8 = e.dst.length := by omega
        rw [if_pos hzero, hcount, heq]
        split_ifs with hless
        · have hpad : 8 * e.dst.length - bits.length = 0 := by omega
          rw [hpad, List.replicate_zero, List.append_nil]
        · exact hdst.resolve_right hless
      · have hcount : (bits.length + 7) / 8 = e.dst.length + align8 e.pending / 8 := by omega
        rw [if_neg hzero, hcount]
        by_cases hless : e.dst.length + align8 e.pending / 8 < src.length
        · have hpad : 8 * (e.dst.length + align8 e.pending / 8) - bits.length = align8 e.pending - e.pending := by omega
          have hbytes : 8 * (align8 e.pending / 8) = (bits' ++ List.replicate (align8 e.pending - e.pending) true).length := by
            rw [List.length_append, List.length_replicate, hhas.pending]
            omega
          rw [if_pos hless, if_neg (not_le.mpr hless), bytesBits_append, bytesBits_putBytes,
            hhas.ones (by omega) (by omega), hbytes, bitsOf_value, hpad, ← heq, List.append_assoc]
        · rw [if_neg hless, if_pos (not_lt.mp hless)]

/-- The code for a byte in lower case. -/
theorem tableCode_lc (c : UInt8) : tableCode ngxHttpV2HuffEncodeTableLc c = huffCode (Dns.ngxTolower c) := by
  revert c
  exact forall_byte (by decide +kernel)

/-- The string that is encoded. -/
def encoded (src : List UInt8) (lower : Bool) : List UInt8 := if lower then Dns.ngxStrlow src else src

theorem length_encoded (src : List UInt8) (lower : Bool) : (encoded src lower).length = src.length := by
  cases lower
  · rfl
  · exact List.length_map _

theorem tableCode_encoded (src : List UInt8) (lower : Bool) :
    src.flatMap (tableCode (if lower then ngxHttpV2HuffEncodeTableLc else ngxHttpV2HuffEncodeTable)) =
      (encoded src lower).flatMap huffCode := by
  cases lower with
  | false => rfl
  | true =>
      have hcode : tableCode ngxHttpV2HuffEncodeTableLc = fun c => huffCode (Dns.ngxTolower c) := funext tableCode_lc
      rw [if_pos rfl, hcode, encoded, if_pos rfl, Dns.ngxStrlow, List.flatMap_map]

/-- **Huffman coding is undone.** What the encoder writes is shorter than the source, and the decoder makes of it, in
whatever pieces it comes, the source again, in lower case if it was to be. The encoder writes nothing exactly if the codes
take no fewer bytes than the source. -/
theorem huff_round_trip (src : List UInt8) (lower : Bool) :
    (ngxHttpV2HuffEncode src lower = [] ↔ src.length ≤ (((encoded src lower).flatMap huffCode).length + 7) / 8) ∧
    (ngxHttpV2HuffEncode src lower ≠ [] → (ngxHttpV2HuffEncode src lower).length < src.length) ∧
    ∀ pieces final, final ≠ [] → pieces.flatten ++ final = ngxHttpV2HuffEncode src lower →
      decodePieces 0 [] final pieces = (⟨0, true, encoded src lower⟩, true) := by
  have hencode := encodeWith_eq (tables_fit lower) src
  have hcodes := codes_length (encoded src lower)
  simp only [tableCode_encoded] at hencode
  rw [length_encoded] at hcodes
  change if _ then bytesBits (ngxHttpV2HuffEncode src lower) = _ else ngxHttpV2HuffEncode src lower = [] at hencode
  generalize ngxHttpV2HuffEncode src lower = out at hencode ⊢
  generalize hbits : (encoded src lower).flatMap huffCode = bits at hencode hcodes ⊢
  split_ifs at hencode with hless
  · have hlen := congrArg List.length hencode
    rw [length_bytesBits, List.length_append, List.length_replicate] at hlen
    have hne : out ≠ [] := by
      intro hnil
      rw [hnil, List.length_nil] at hlen
      omega
    refine ⟨iff_of_false hne (by omega), fun _ => by omega, fun pieces final hfinal hout => ?_⟩
    refine ((huff_decode pieces final fun hnil => absurd hnil hfinal).1 _).mpr ⟨_, ?_, by rw [hout, hencode, hbits]⟩
    omega
  · refine ⟨iff_of_true hencode (not_lt.mp hless), fun hne => absurd hencode hne, fun pieces final hfinal hout => ?_⟩
    rw [hencode, List.append_eq_nil_iff] at hout
    exact absurd hout.2 hfinal

end NginxDtls.Huff
