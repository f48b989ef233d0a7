import Mathlib
import NginxDtls.Checked
import NginxDtls.Core

/-! Base64 as `ngx_string.c` writes and reads it, with either alphabet. Three bytes are four characters; what is left over
is one byte as two characters or two bytes as three. -/

namespace NginxDtls.Base64

open Checked

/-! ### The encoder -/

/-- `basis64` of `ngx_encode_base64` -/
def encodeBasis : ByteArray := "ABCDEFGHIJKLMNOPQRSTUVWXYZabcdefghijklmnopqrstuvwxyz0123456789+/".toUTF8

/-- `basis64` of `ngx_encode_base64url` -/
def encodeBasisUrl : ByteArray := "ABCDEFGHIJKLMNOPQRSTUVWXYZabcdefghijklmnopqrstuvwxyz0123456789-_".toUTF8

/-- `basis[v]` -/
def character (basis : ByteArray) (v : UInt8) : UInt8 := basis.data.getD v.toNat 0

def equalSign : UInt8 := 61

def ngxEncodeBase64Internal (basis : ByteArray) (padding : Bool) : List UInt8 → List UInt8
  | s0 :: s1 :: s2 :: s =>
    character basis ((s0 >>> 2) &&& 0x3f) :: character basis (((s0 &&& 3) <<< 4) ||| (s1 >>> 4)) ::
      character basis (((s1 &&& 0x0f) <<< 2) ||| (s2 >>> 6)) :: character basis (s2 &&& 0x3f) ::
      ngxEncodeBase64Internal basis padding s
  | [s0, s1] =>
    character basis ((s0 >>> 2) &&& 0x3f) :: character basis (((s0 &&& 3) <<< 4) ||| (s1 >>> 4)) ::
      character basis ((s1 &&& 0x0f) <<< 2) :: (if padding then [equalSign] else [])
  | [s0] =>
    character basis ((s0 >>> 2) &&& 0x3f) :: character basis ((s0 &&& 3) <<< 4) ::
      ((if padding then [equalSign] else []) ++ if padding then [equalSign] else [])
  | [] => []

def ngxEncodeBase64 (src : List UInt8) : List UInt8 := ngxEncodeBase64Internal encodeBasis true src

def ngxEncodeBase64url (src : List UInt8) : List UInt8 := ngxEncodeBase64Internal encodeBasisUrl false src

/-! ### The decoder -/

/-- `basis64` of `ngx_decode_base64` -/
def decodeBasis : Array UInt8 :=
  #[77, 77, 77, 77, 77, 77, 77, 77, 77, 77, 77, 77, 77, 77, 77, 77,
    77, 77, 77, 77, 77, 77, 77, 77, 77, 77, 77, 77, 77, 77, 77, 77,
    77, 77, 77, 77, 77, 77, 77, 77, 77, 77, 77, 62, 77, 77, 77, 63,
    52, 53, 54, 55, 56, 57, 58, 59, 60, 61, 77, 77, 77, 77, 77, 77,
    77, 0, 1, 2, 3, 4, 5, 6, 7, 8, 9, 10, 11, 12, 13, 14,
    15, 16, 17, 18, 19, 20, 21, 22, 23, 24, 25, 77, 77, 77, 77, 77,
    77, 26, 27, 28, 29, 30, 31, 32, 33, 34, 35, 36, 37, 38, 39, 40,
    41, 42, 43, 44, 45, 46, 47, 48, 49, 50, 51, 77, 77, 77, 77, 77,
    77, 77, 77, 77, 77, 77, 77, 77, 77, 77, 77, 77, 77, 77, 77, 77,
    77, 77, 77, 77, 77, 77, 77, 77, 77, 77, 77, 77, 77, 77, 77, 77,
    77, 77, 77, 77, 77, 77, 77, 77, 77, 77, 77, 77, 77, 77, 77, 77,
    77, 77, 77, 77, 77, 77, 77, 77, 77, 77, 77, 77, 77, 77, 77, 77,
    77, 77, 77, 77, 77, 77, 77, 77, 77, 77, 77, 77, 77, 77, 77, 77,
    77, 77, 77, 77, 77, 77, 77, 77, 77, 77, 77, 77, 77, 77, 77, 77,
    77, 77, 77, 77, 77, 77, 77, 77, 77, 77, 77, 77, 77, 77, 77, 77,
    77, 77, 77, 77, 77, 77, 77, 77, 77, 77, 77, 77, 77, 77, 77, 77]

/-- `basis64` of `ngx_decode_base64url` -/
def decodeBasisUrl : Array UInt8 :=
  #[77, 77, 77, 77, 77, 77, 77, 77, 77, 77, 77, 77, 77, 77, 77, 77,
    77, 77, 77, 77, 77, 77, 77, 77, 77, 77, 77, 77, 77, 77, 77, 77,
    77, 77, 77, 77, 77, 77, 77, 77, 77, 77, 77, 77, 77, 62, 77, 77,
    52, 53, 54, 55, 56, 57, 58, 59, 60, 61, 77, 77, 77, 77, 77, 77,
    77, 0, 1, 2, 3, 4, 5, 6, 7, 8, 9, 10, 11, 12, 13, 14,
    15, 16, 17, 18, 19, 20, 21, 22, 23, 24, 25, 77, 77, 77, 77, 63,
    77, 26, 27, 28, 29, 30, 31, 32, 33, 34, 35, 36, 37, 38, 39, 40,
    41, 42, 43, 44, 45, 46, 47, 48, 49, 50, 51, 77, 77, 77, 77, 77,
    77, 77, 77, 77, 77, 77, 77, 77, 77, 77, 77, 77, 77, 77, 77, 77,
    77, 77, 77, 77, 77, 77, 77, 77, 77, 77, 77, 77, 77, 77, 77, 77,
    77, 77, 77, 77, 77, 77, 77, 77, 77, 77, 77, 77, 77, 77, 77, 77,
    77, 77, 77, 77, 77, 77, 77, 77, 77, 77, 77, 77, 77, 77, 77, 77,
    77, 77, 77, 77, 77, 77, 77, 77, 77, 77, 77, 77, 77, 77, 77, 77,
    77, 77, 77, 77, 77, 77, 77, 77, 77, 77, 77, 77, 77, 77, 77, 77,
    77, 77, 77, 77, 77, 77, 77, 77, 77, 77, 77, 77, 77, 77, 77, 77,
    77, 77, 77, 77, 77, 77, 77, 77, 77, 77, 77, 77, 77, 77, 77, 77]

/-- `basis[c]`, 77 if `c` is in no alphabet. -/
def value (basis : Array UInt8) (c : UInt8) : UInt8 := basis.getD c.toNat 0

/-- The loop that looks for the end of the characters, with `left` bytes of the input to come. -/
def charactersLen (basis : Array UInt8) (data : List UInt8) : ℕ → ℕ → Checked NgxInt ℕ
  | 0, len => pure len
  | left + 1, len => do
      let c ← peekAt data len
      if c = equalSign then pure len
      else if value basis c = 77 then throw (.returned .error)
      else charactersLen basis data left (len + 1)

/-- What the loop over four characters and the tail behind it write, for `len` characters at `s`. -/
def decodeGroups (basis : Array UInt8) : ℕ → List UInt8 → Checked NgxInt (List UInt8)
  | len + 4, s => do
      let s0 ← peekAt s 0
      let s1 ← peekAt s 1
      let s2 ← peekAt s 2
      let s3 ← peekAt s 3
      let d ← decodeGroups basis len (s.drop 4)
      pure ((value basis s0 <<< 2 ||| value basis s1 >>> 4) :: (value basis s1 <<< 4 ||| value basis s2 >>> 2) ::
        (value basis s2 <<< 6 ||| value basis s3) :: d)
  | len, s => do
      let d ← if 1 < len then do
          let s0 ← peekAt s 0
          let s1 ← peekAt s 1
          pure [value basis s0 <<< 2 ||| value basis s1 >>> 4]
        else pure []
      let d' ← if 2 < len then do
          let s1 ← peekAt s 1
          let s2 ← peekAt s 2
          pure [value basis s1 <<< 4 ||| value basis s2 >>> 2]
        else pure []
      pure (d ++ d')

def ngxDecodeBase64Internal (src : List UInt8) (basis : Array UInt8) : Checked NgxInt (List UInt8) := do
  let len ← charactersLen basis src src.length 0
  if len % 4 = 1 then throw (.returned .error)
  decodeGroups basis len src

def ngxDecodeBase64 (src : List UInt8) : Checked NgxInt (List UInt8) := ngxDecodeBase64Internal src decodeBasis

def ngxDecodeBase64url (src : List UInt8) : Checked NgxInt (List UInt8) := ngxDecodeBase64Internal src decodeBasisUrl

def ngxBase64DecodedLength (len : ℕ) : ℕ := (len + 3) / 4 * 3

/-! ### The alphabets -/

/-- The table of the decoder is that of the encoder the other way round, and 77 marks what is not in it. -/
structure Inverse (basis : ByteArray) (table : Array UInt8) : Prop where
  size : table.size = 256
  alphabet : basis.size = 64
  back : ∀ e ∈ basis.data.toList.zipIdx, e.1 ≠ equalSign ∧ value table e.1 = e.2.toUInt8
  forth : ∀ e ∈ table.toList.zipIdx, e.1 ≠ 77 → basis.data.toList[e.1.toNat]? = some e.2.toUInt8

theorem inverse_base64 : Inverse encodeBasis decodeBasis :=
  ⟨by decide +kernel, by decide +kernel, by decide +kernel, by decide +kernel⟩

theorem inverse_base64url : Inverse encodeBasisUrl decodeBasisUrl :=
  ⟨by decide +kernel, by decide +kernel, by decide +kernel, by decide +kernel⟩

variable {basis : ByteArray} {table : Array UInt8}

theorem character_eq (basis : ByteArray) (v : UInt8) (c : UInt8) (h : basis.data.toList[v.toNat]? = some c) :
    character basis v = c := by
  rw [Array.getElem?_toList] at h
  rw [character, Array.getD_eq_getD_getElem?, h]
  rfl

namespace Inverse

/-- A character of the encoder is read back, and does not end the characters. -/
theorem value_character (h : Inverse basis table) {v : UInt8} (hv : v.toNat < 64) :
    character basis v ≠ equalSign ∧ value table (character basis v) = v := by
  have hsize : v.toNat < basis.data.toList.length := by
    rw [Array.length_toList]
    exact hv.trans_eq h.alphabet.symm
  have hget : basis.data.toList[v.toNat]? = some basis.data.toList[v.toNat] := List.getElem?_eq_getElem hsize
  have hback := h.back (basis.data.toList[v.toNat], v.toNat) (List.mk_mem_zipIdx_iff_getElem?.mpr hget)
  rw [← character_eq basis v _ hget, Nat.toUInt8_eq, UInt8.ofNat_toNat] at hback
  exact hback

theorem value_ne_of_lt (h : Inverse basis table) {v : UInt8} (hv : v.toNat < 64) :
    value table (character basis v) ≠ 77 := by
  rw [(h.value_character hv).2]
  rintro rfl
  exact absurd hv (by decide)

/-- The decoder takes the characters of the encoder and no others. -/
theorem value_ne (h : Inverse basis table) (c : UInt8) : value table c ≠ 77 ↔ c ∈ basis.data := by
  constructor
  · intro hc
    have hsize : c.toNat < table.size := c.toNat_lt.trans_eq h.size.symm
    have hget : table.toList[c.toNat]? = some (value table c) := by
      rw [Array.getElem?_toList, value, Array.getD_eq_getD_getElem?, Array.getElem?_eq_getElem hsize]
      rfl
    have hforth := h.forth (value table c, c.toNat) (List.mk_mem_zipIdx_iff_getElem?.mpr hget) hc
    rw [Nat.toUInt8_eq, UInt8.ofNat_toNat] at hforth
    exact Array.mem_toList_iff.mp (List.mem_of_getElem? hforth)
  · intro hc
    obtain ⟨i, hi, rfl⟩ := Array.mem_iff_getElem.mp hc
    have h64 : i < 64 := hi.trans_eq h.alphabet
    have hv : i.toUInt8.toNat = i := by
      rw [Nat.toUInt8_eq, UInt8.toNat_ofNat']
      omega
    have hchar : character basis i.toUInt8 = basis.data[i] := by
      apply character_eq
      rw [hv, Array.getElem?_toList]
      exact Array.getElem?_eq_getElem hi
    rw [← hchar]
    exact h.value_ne_of_lt (by omega)

end Inverse

/-! ### Six bits and eight -/

theorem lt_of_and_eq {v : UInt8} (h : v &&& 0x3f = v) : v.toNat < 64 := by
  rw [← h, UInt8.toNat_and]
  exact Nat.and_lt_two_pow _ (by decide : (0x3f : UInt8).toNat < 2 ^ 6)

theorem eq_of_bits {x y : UInt8} (h : ∀ i < 8, x.toBitVec.getLsbD i = y.toBitVec.getLsbD i) : x = y := by
  apply UInt8.toBitVec_inj.mp
  exact BitVec.eq_of_getLsbD_eq h

theorem sextet0_lt (s0 : UInt8) : ((s0 >>> 2) &&& 0x3f).toNat < 64 := by
  apply lt_of_and_eq
  apply eq_of_bits
  intro i hi
  interval_cases i <;> simp

theorem sextet1_lt (s0 s1 : UInt8) : (((s0 &&& 3) <<< 4) ||| (s1 >>> 4)).toNat < 64 := by
  apply lt_of_and_eq
  apply eq_of_bits
  intro i hi
  interval_cases i <;> simp

theorem sextet2_lt (s1 s2 : UInt8) : (((s1 &&& 0x0f) <<< 2) ||| (s2 >>> 6)).toNat < 64 := by
  apply lt_of_and_eq
  apply eq_of_bits
  intro i hi
  interval_cases i <;> simp

theorem sextet3_lt (s2 : UInt8) : (s2 &&& 0x3f).toNat < 64 := by
  apply lt_of_and_eq
  apply eq_of_bits
  intro i hi
  interval_cases i <;> simp

theorem octet0 (s0 s1 : UInt8) :
    ((s0 >>> 2) &&& 0x3f) <<< 2 ||| (((s0 &&& 3) <<< 4) ||| (s1 >>> 4)) >>> 4 = s0 := by
  apply eq_of_bits
  intro i hi
  interval_cases i <;> simp

theorem octet1 (s0 s1 s2 : UInt8) :
    (((s0 &&& 3) <<< 4) ||| (s1 >>> 4)) <<< 4 ||| (((s1 &&& 0x0f) <<< 2) ||| (s2 >>> 6)) >>> 2 = s1 := by
  apply eq_of_bits
  intro i hi
  interval_cases i <;> simp

theorem octet2 (s1 s2 : UInt8) : (((s1 &&& 0x0f) <<< 2) ||| (s2 >>> 6)) <<< 6 ||| (s2 &&& 0x3f) = s2 := by
  apply eq_of_bits
  intro i hi
  interval_cases i <;> simp

/-! ### The end of the characters -/

/-- The bytes before the first `=`. -/
def characters (src : List UInt8) : List UInt8 := src.takeWhile (· ≠ equalSign)

theorem characters_cons (c : UInt8) (src : List UInt8) :
    characters (c :: src) = if c = equalSign then [] else c :: characters src := by
  rw [characters, List.takeWhile_cons]
  by_cases hc : c = equalSign <;> simp [hc, characters]

theorem characters_append {chars : List UInt8} (h : ∀ c ∈ chars, c ≠ equalSign) (n : ℕ) :
    characters (chars ++ List.replicate n equalSign) = chars := by
  rw [characters, List.takeWhile_append_of_pos (fun c hc => decide_eq_true (h c hc))]
  cases n with
  | zero => exact List.append_nil _
  | succ n =>
      rw [List.replicate_succ, List.takeWhile_cons_of_neg (by simp)]
      exact List.append_nil _

/-- The loop looks at bytes of the input only, and stops behind the characters or at one that is in no alphabet. -/
theorem charactersLen_eq (table : Array UInt8) (pre src : List UInt8) :
    charactersLen table (pre ++ src) src.length pre.length =
      if ∀ c ∈ characters src, value table c ≠ 77 then pure (pre.length + (characters src).length)
      else throw (.returned .error) := by
  induction src generalizing pre with
  | nil =>
      have hnone : ∀ c ∈ characters [], value table c ≠ 77 := fun c hc => absurd hc List.not_mem_nil
      rw [if_pos hnone]
      rfl
  | cons c src ih =>
      have hpeek : (pre ++ c :: src)[pre.length]? = some c := by
        rw [List.getElem?_append_right (Nat.le_refl _), Nat.sub_self]
        rfl
      have hnext := ih (pre ++ [c])
      rw [List.append_assoc, List.singleton_append, List.length_append, List.length_singleton] at hnext
      rw [List.length_cons, charactersLen, peekAt_eq hpeek, pure_bind, hnext, characters_cons]
      by_cases hc : c = equalSign
      · simp [hc]
      · by_cases hvalue : value table c = 77
        · simp [hc, hvalue]
        · simp only [hc, hvalue, if_false, List.forall_mem_cons, ne_eq, not_false_eq_true, true_and, List.length_cons]
          rw [Nat.add_assoc, Nat.add_comm 1]

/-! ### The groups -/

section Groups

variable (table : Array UInt8) (len : ℕ) (s0 s1 s2 s3 : UInt8) (s : List UInt8)

theorem decodeGroups_four : decodeGroups table (len + 4) (s0 :: s1 :: s2 :: s3 :: s) =
    (decodeGroups table len s >>= fun d =>
      pure ((value table s0 <<< 2 ||| value table s1 >>> 4) :: (value table s1 <<< 4 ||| value table s2 >>> 2) ::
        (value table s2 <<< 6 ||| value table s3) :: d)) := by
  rw [decodeGroups]
  rfl

theorem decodeGroups_three : decodeGroups table 3 (s0 :: s1 :: s2 :: s) =
    pure [value table s0 <<< 2 ||| value table s1 >>> 4, value table s1 <<< 4 ||| value table s2 >>> 2] := rfl

theorem decodeGroups_two : decodeGroups table 2 (s0 :: s1 :: s) =
    pure [value table s0 <<< 2 ||| value table s1 >>> 4] := rfl

theorem decodeGroups_one : decodeGroups table 1 s = pure [] := rfl

theorem decodeGroups_zero : decodeGroups table 0 s = pure [] := rfl

end Groups

/-- The decoder writes three bytes for four characters, and reads the characters only. -/
theorem decodeGroups_length (table : Array UInt8) (len : ℕ) (s : List UInt8) (hlen : len ≤ s.length) :
    ∃ d, decodeGroups table len s = pure d ∧ d.length = len * 3 / 4 := by
  induction len using Nat.strongRecOn generalizing s with
  | ind len ih =>
      match len, s with
      | 0, s => exact ⟨[], decodeGroups_zero table s, rfl⟩
      | 1, s => exact ⟨[], decodeGroups_one table s, rfl⟩
      | 2, s0 :: s1 :: s => exact ⟨_, decodeGroups_two table s0 s1 s, rfl⟩
      | 3, s0 :: s1 :: s2 :: s => exact ⟨_, decodeGroups_three table s0 s1 s2 s, rfl⟩
      | len + 4, s0 :: s1 :: s2 :: s3 :: s =>
          simp only [List.length_cons] at hlen
          obtain ⟨d, hd, hlength⟩ := ih len (by omega) s (by omega)
          have hstep := decodeGroups_four table len s0 s1 s2 s3 s
          rw [hd, pure_bind] at hstep
          refine ⟨_, hstep, ?_⟩
          simp only [List.length_cons]
          omega

/-- The characters of a string without the padding. -/
theorem ngxEncodeBase64Internal_eq (basis : ByteArray) (padding : Bool) (s : List UInt8) :
    ∃ n, ngxEncodeBase64Internal basis padding s =
      ngxEncodeBase64Internal basis false s ++ List.replicate n equalSign := by
  induction s using ngxEncodeBase64Internal.induct with
  | case1 s0 s1 s2 s ih =>
      obtain ⟨n, hn⟩ := ih
      refine ⟨n, ?_⟩
      rw [ngxEncodeBase64Internal, ngxEncodeBase64Internal, hn]
      rfl
  | case2 s0 s1 => exact ⟨if padding then 1 else 0, by cases padding <;> rfl⟩
  | case3 s0 => exact ⟨if padding then 2 else 0, by cases padding <;> rfl⟩
  | case4 => exact ⟨0, rfl⟩

/-- What the encoder writes without padding are characters, and the decoder reads them back. -/
theorem decodeGroups_encode {basis : ByteArray} {table : Array UInt8} (h : Inverse basis table) (s rest : List UInt8) :
    let chars := ngxEncodeBase64Internal basis false s
    (∀ c ∈ chars, c ≠ equalSign ∧ value table c ≠ 77) ∧ chars.length % 4 ≠ 1 ∧
      decodeGroups table chars.length (chars ++ rest) = pure s := by
  induction s using ngxEncodeBase64Internal.induct with
  | case1 s0 s1 s2 s ih =>
      obtain ⟨hchars, hlength, hdecode⟩ := ih
      have h0 := h.value_character (sextet0_lt s0)
      have h1 := h.value_character (sextet1_lt s0 s1)
      have h2 := h.value_character (sextet2_lt s1 s2)
      have h3 := h.value_character (sextet3_lt s2)
      rw [ngxEncodeBase64Internal]
      refine ⟨?_, ?_, ?_⟩
      · simp only [List.forall_mem_cons]
        exact ⟨⟨h0.1, h.value_ne_of_lt (sextet0_lt s0)⟩, ⟨h1.1, h.value_ne_of_lt (sextet1_lt s0 s1)⟩,
          ⟨h2.1, h.value_ne_of_lt (sextet2_lt s1 s2)⟩, ⟨h3.1, h.value_ne_of_lt (sextet3_lt s2)⟩, hchars⟩
      · simp only [List.length_cons]
        omega
      · simp only [List.length_cons, List.cons_append]
        rw [decodeGroups_four, hdecode, pure_bind, h0.2, h1.2, h2.2, h3.2, octet0, octet1, octet2]
  | case2 s0 s1 =>
      have hlast : (s1 &&& 0x0f) <<< 2 ||| (0 : UInt8) >>> 6 = (s1 &&& 0x0f) <<< 2 := by simp
      have h0 := h.value_character (sextet0_lt s0)
      have h1 := h.value_character (sextet1_lt s0 s1)
      have h2 := h.value_character (hlast ▸ sextet2_lt s1 0)
      have hoctet1 := octet1 s0 s1 0
      rw [hlast] at hoctet1
      rw [ngxEncodeBase64Internal]
      refine ⟨?_, ?_, ?_⟩
      · simp only [List.forall_mem_cons]
        exact ⟨⟨h0.1, h.value_ne_of_lt (sextet0_lt s0)⟩, ⟨h1.1, h.value_ne_of_lt (sextet1_lt s0 s1)⟩,
          ⟨h2.1, h.value_ne_of_lt (hlast ▸ sextet2_lt s1 0)⟩, by simp⟩
      · simp
      · simp only [List.cons_append, Bool.false_eq_true, if_false, List.length_cons, List.length_nil]
        rw [decodeGroups_three, h0.2, h1.2, h2.2, octet0, hoctet1]
  | case3 s0 =>
      have hlast : (s0 &&& 3) <<< 4 ||| (0 : UInt8) >>> 4 = (s0 &&& 3) <<< 4 := by simp
      have h0 := h.value_character (sextet0_lt s0)
      have h1 := h.value_character (hlast ▸ sextet1_lt s0 0)
      have hoctet0 := octet0 s0 0
      rw [hlast] at hoctet0
      rw [ngxEncodeBase64Internal]
      refine ⟨?_, ?_, ?_⟩
      · simp only [List.forall_mem_cons]
        exact ⟨⟨h0.1, h.value_ne_of_lt (sextet0_lt s0)⟩,
          ⟨h1.1, h.value_ne_of_lt (hlast ▸ sextet1_lt s0 0)⟩, by simp⟩
      · simp
      · simp only [List.cons_append, Bool.false_eq_true, if_false, List.length_cons, List.length_nil, List.nil_append]
        rw [decodeGroups_two, h0.2, h1.2, hoctet0]
  | case4 =>
      rw [ngxEncodeBase64Internal]
      exact ⟨fun c hc => absurd hc List.not_mem_nil, Nat.zero_ne_one, rfl⟩

/-! ### Decoding -/

/-- The decoder on any input. -/
theorem ngxDecodeBase64Internal_eq (table : Array UInt8) (src : List UInt8) :
    ngxDecodeBase64Internal src table =
      if (∀ c ∈ characters src, value table c ≠ 77) ∧ (characters src).length % 4 ≠ 1 then
        decodeGroups table (characters src).length src
      else throw (.returned .error) := by
  have hlen := charactersLen_eq table [] src
  rw [List.nil_append, List.length_nil, Nat.zero_add] at hlen
  rw [ngxDecodeBase64Internal, hlen]
  by_cases hvalid : ∀ c ∈ characters src, value table c ≠ 77
  · by_cases hlength : (characters src).length % 4 = 1
    · rw [if_pos hvalid, pure_bind, if_pos hlength, if_neg (fun h => h.2 hlength)]
      rfl
    · rw [if_pos hvalid, pure_bind, if_neg hlength, if_pos ⟨hvalid, hlength⟩]
  · rw [if_neg hvalid, if_neg (fun h => hvalid h.1)]
    rfl

/-- What a decoder owes an encoder that writes characters of `basis`. -/
structure RoundTrip (basis : ByteArray) (encode : List UInt8 → List UInt8)
    (decode : List UInt8 → Checked NgxInt (List UInt8)) : Prop where
  decode_encode : ∀ s, decode (encode s) = .ok s
  no_undefined : ∀ src, decode src ≠ .error .undefined
  length_le : ∀ src d, decode src = .ok d → d.length ≤ ngxBase64DecodedLength src.length
  accepts : ∀ src, (∃ d, decode src = .ok d) ↔
    (∀ c ∈ characters src, c ∈ basis.data) ∧ (characters src).length % 4 ≠ 1

theorem Inverse.roundTrip {basis : ByteArray} {table : Array UInt8} (h : Inverse basis table) (padding : Bool) :
    RoundTrip basis (ngxEncodeBase64Internal basis padding) (fun src => ngxDecodeBase64Internal src table) := by
  have hle : ∀ src : List UInt8, (characters src).length ≤ src.length := fun src =>
    (List.takeWhile_prefix _).length_le
  have hdecode : ∀ src, (∃ d, ngxDecodeBase64Internal src table = .ok d ∧ d.length = (characters src).length * 3 / 4 ∧
      (∀ c ∈ characters src, value table c ≠ 77) ∧ (characters src).length % 4 ≠ 1) ∨
      ngxDecodeBase64Internal src table = .error (.returned .error) ∧
        ¬((∀ c ∈ characters src, value table c ≠ 77) ∧ (characters src).length % 4 ≠ 1) := by
    intro src
    rw [ngxDecodeBase64Internal_eq]
    split
    · rename_i haccept
      obtain ⟨d, hd, hlength⟩ := decodeGroups_length table _ src (hle src)
      exact .inl ⟨d, hd, hlength, haccept⟩
    · rename_i hreject
      exact .inr ⟨rfl, hreject⟩
  refine ⟨?_, ?_, ?_, ?_⟩
  · intro s
    obtain ⟨n, hn⟩ := ngxEncodeBase64Internal_eq basis padding s
    obtain ⟨hchars, hlength, hs⟩ := decodeGroups_encode h s (List.replicate n equalSign)
    rw [hn, ngxDecodeBase64Internal_eq, characters_append fun c hc => (hchars c hc).1,
      if_pos ⟨fun c hc => (hchars c hc).2, hlength⟩]
    exact hs
  · intro src hundefined
    rcases hdecode src with ⟨d, hd, -⟩ | ⟨herror, -⟩
    · rw [hd] at hundefined
      cases hundefined
    · rw [herror] at hundefined
      cases hundefined
  · intro src d hd
    rcases hdecode src with ⟨d', hd', hlength, -⟩ | ⟨herror, -⟩
    · obtain rfl : d' = d := Except.ok.inj (hd'.symm.trans hd)
      have := hle src
      rw [ngxBase64DecodedLength]
      omega
    · rw [herror] at hd
      cases hd
  · intro src
    have hvalid : (∀ c ∈ characters src, value table c ≠ 77) ↔ ∀ c ∈ characters src, c ∈ basis.data :=
      forall₂_congr fun c _ => h.value_ne c
    rw [← hvalid]
    rcases hdecode src with ⟨d, hd, -, haccept⟩ | ⟨herror, hreject⟩
    · exact ⟨fun _ => haccept, fun _ => ⟨d, hd⟩⟩
    · refine ⟨?_, fun haccept => absurd haccept hreject⟩
      rintro ⟨d, hd⟩
      rw [herror] at hd
      cases hd

/-- Both alphabets: the decoder undoes the encoder, reads inside of its input only, writes no more than
`ngx_base64_decoded_length`, and accepts the strings whose characters are in the alphabet and not one more than a multiple
of four. -/
theorem base64_roundtrip :
    RoundTrip encodeBasis ngxEncodeBase64 ngxDecodeBase64 ∧
      RoundTrip encodeBasisUrl ngxEncodeBase64url ngxDecodeBase64url :=
  ⟨inverse_base64.roundTrip true, inverse_base64url.roundTrip false⟩

end NginxDtls.Base64
