import NginxDtls.StunEncode

/-! The language that `ngx_stun_parse` accepts, stated over attribute lists and not over positions: a message is
its header and the images of its attributes, and a field has the value of the last attribute of its kind. -/

namespace NginxDtls

open Memory Crc

/-- The bytes of a list; what is read behind them is zero. -/
def bytesOf (l : List UInt8) : Nat → UInt8 := fun k => l.getD k 0

/-! ### Attributes -/

/-- An attribute with its padding to four bytes, whose contents are free. -/
structure StunTlv where
  code : UInt16
  value : List UInt8
  padding : List UInt8
  short : value.length < 65536
  padded : padding.length = (4 - value.length % 4) % 4

namespace StunTlv

/-- Type, length, value and padding. -/
def image (a : StunTlv) : List UInt8 :=
  split16 a.code ++ split16 (UInt16.ofNat a.value.length) ++ a.value ++ a.padding

/-- The attribute is of a kind. -/
def Is (a : StunTlv) (attr : StunAttribute) : Prop := a.code = attr.code

instance (a : StunTlv) (attr : StunAttribute) : Decidable (a.Is attr) := inferInstanceAs (Decidable (_ = _))

/-- The length of the value is one that its kind may have. -/
structure SizeOk (a : StunTlv) : Prop where
  username : a.Is .username → a.value.length ≤ stunUsernameSize - 1
  priority : a.Is .priority → a.value.length = 4
  nomination : a.Is .nomination → a.value.length = 4
  fingerprint : a.Is .fingerprint → a.value.length = 4
  iceControlling : a.Is .iceControlling → a.value.length = 8
  iceControlled : a.Is .iceControlled → a.value.length = 8
  useCandidate : a.Is .useCandidate → a.value.length = 0
  messageIntegrity : a.Is .messageIntegrity → a.value.length = 20
  errorCode : a.Is .errorCode → 4 ≤ a.value.length

/-- Nothing follows FINGERPRINT, and only FINGERPRINT follows MESSAGE-INTEGRITY. -/
def MayPrecede (a b : StunTlv) : Prop := ¬a.Is .fingerprint ∧ (a.Is .messageIntegrity → b.Is .fingerprint)

/-- The value as a word. -/
def word32 (a : StunTlv) : UInt32 := be32 (bytesOf a.value) 0

def word64 (a : StunTlv) : UInt64 := be64 (bytesOf a.value) 0

/-- Class and number of an error code. -/
def error (a : StunTlv) : UInt16 :=
  (bytesOf a.value 2).toUInt16 * 100 + (bytesOf a.value 3).toUInt16

theorem image_length (a : StunTlv) : a.image.length = 4 + (a.value.length + 3) / 4 * 4 := by
  simp only [image, split16, List.length_append, List.length_cons, List.length_nil, a.padded]
  omega

end StunTlv

/-- The attributes with the offsets at which they start. -/
def placed (pos : Nat) : List StunTlv → List (Nat × StunTlv)
  | [] => []
  | a :: as => (pos, a) :: placed (pos + a.image.length) as

/-- The last attribute of a kind. -/
def lastOf (attr : StunAttribute) (as : List (Nat × StunTlv)) : Option (Nat × StunTlv) :=
  as.reverse.find? fun x => x.2.Is attr

/-- The message is the header and the images of the attributes, and these obey the rules. -/
structure StunMessage (data : List UInt8) (as : List StunTlv) : Prop where
  length : (be16 (bytesOf data) 2).toNat = data.length - 20
  multiple : (data.length - 20) % 4 = 0
  tiles : data.drop 20 = as.flatMap StunTlv.image
  sizes : ∀ a ∈ as, a.SizeOk
  order : as.Pairwise StunTlv.MayPrecede
  fingerprint : ∀ x ∈ placed 20 as, x.2.Is .fingerprint → x.2.word32 = crc32 (data.take x.1) ^^^ 0x5354554e

/-- Every field as the last attribute of its kind has it, and as it was without one. -/
def stunFilled (p : StunPacket) (as : List (Nat × StunTlv)) : StunPacket :=
  { p with
    usernameLen := (lastOf .username as).elim p.usernameLen fun x => UInt16.ofNat x.2.value.length
    priority := (lastOf .priority as).elim p.priority fun x => x.2.word32
    iceControlling := (lastOf .iceControlling as).elim p.iceControlling fun x => x.2.word64
    iceControlled := (lastOf .iceControlled as).elim p.iceControlled fun x => x.2.word64
    hasUseCandidate := (lastOf .useCandidate as).elim p.hasUseCandidate fun _ => true
    hasNomination := (lastOf .nomination as).elim p.hasNomination fun _ => true
    nomination := (lastOf .nomination as).elim p.nomination fun x => x.2.word32
    messageIntegrity := (lastOf .messageIntegrity as).elim p.messageIntegrity fun x => ⟨.packet, x.1 + 4⟩
    hasFingerprint := (lastOf .fingerprint as).elim p.hasFingerprint fun _ => true
    errorCode := (lastOf .errorCode as).elim p.errorCode fun x => x.2.error }

/-! ### The attribute at a position -/

theorem split16_join (a b : UInt8) : split16 (join16 a b) = [a, b] := by
  have h := join16_toNat a b
  have ha := a.toNat_lt
  have hb := b.toNat_lt
  have hhigh : (join16 a b >>> 8).toUInt8 = a := by
    apply UInt8.toNat_inj.mp
    rw [UInt16.toNat_toUInt8, UInt16.toNat_shiftRight, h, show UInt16.toNat 8 % 16 = 8 by rfl,
      Nat.shiftRight_eq_div_pow]
    omega
  have hlow : (join16 a b).toUInt8 = b := by
    apply UInt8.toNat_inj.mp
    rw [UInt16.toNat_toUInt8, h]
    omega
  rw [split16, hhigh, hlow]

theorem bytesAt_add (f : Nat → UInt8) (i m n : Nat) : bytesAt f i (m + n) = bytesAt f i m ++ bytesAt f (i + m) n := by
  simp only [bytesAt, List.range_add, List.map_append, List.map_map]
  congr 1
  apply List.map_congr_left
  intro k _
  simp [Nat.add_assoc]

theorem bytesAt_drop (f : Nat → UInt8) (i m n : Nat) : (bytesAt f i (m + n)).drop m = bytesAt f (i + m) n := by
  rw [bytesAt_add, List.drop_left' (bytesAt_length f i m)]

theorem bytesAt_take (f : Nat → UInt8) (i m n : Nat) : (bytesAt f i (m + n)).take m = bytesAt f i m := by
  rw [bytesAt_add, List.take_left' (bytesAt_length f i m)]

theorem bytesOf_bytesAt {f : Nat → UInt8} {i n k : Nat} (hk : k < n) : bytesOf (bytesAt f i n) k = f (i + k) := by
  rw [bytesOf, List.getD_eq_getElem?_getD, bytesAt_getElem? f i hk, Option.getD_some]

/-- The attribute that the bytes from a position on spell. -/
def tlvAt (f : Nat → UInt8) (pos : Nat) : StunTlv where
  code := be16 f pos
  value := bytesAt f (pos + 4) (be16 f (pos + 2)).toNat
  padding := bytesAt f (pos + 4 + (be16 f (pos + 2)).toNat) ((4 - (be16 f (pos + 2)).toNat % 4) % 4)
  short := by
    rw [bytesAt_length]
    exact UInt16.toNat_lt _
  padded := by rw [bytesAt_length, bytesAt_length]

theorem tlvAt_image (f : Nat → UInt8) (pos : Nat) :
    bytesAt f pos (tlvAt f pos).image.length = (tlvAt f pos).image := by
  have hlen : (tlvAt f pos).image.length =
      4 + (be16 f (pos + 2)).toNat + (4 - (be16 f (pos + 2)).toNat % 4) % 4 := by
    simp [StunTlv.image, split16, tlvAt]
    omega
  have hhead : bytesAt f pos 4 = split16 (be16 f pos) ++ split16 (be16 f (pos + 2)) := by
    rw [be16, be16, split16_join, split16_join]
    rfl
  rw [hlen, bytesAt_add, bytesAt_add, hhead, StunTlv.image]
  simp [tlvAt, Nat.add_assoc]

/-- Bytes that start with the image of an attribute spell that attribute. -/
theorem tlvAt_eq {f : Nat → UInt8} {pos n : Nat} {a : StunTlv} {rest : List UInt8}
    (h : bytesAt f pos n = a.image ++ rest) : tlvAt f pos = a := by
  have hget : ∀ k b, (a.image ++ rest)[k]? = some b → f (pos + k) = b := by
    intro k b hk
    rw [← h] at hk
    have hlt : k < n := by
      have := (List.getElem?_eq_some_iff.mp hk).1
      simpa using this
    rw [bytesAt_getElem? f pos hlt] at hk
    exact Option.some.inj hk
  have hcode : be16 f pos = a.code := by
    have hfirst : f pos = (a.code >>> 8).toUInt8 := hget 0 _ rfl
    rw [be16, hfirst, hget 1 a.code.toUInt8 rfl, join16_split]
  have hlength : be16 f (pos + 2) = UInt16.ofNat a.value.length := by
    rw [be16, hget 2 (UInt16.ofNat a.value.length >>> 8).toUInt8 rfl,
      hget 3 (UInt16.ofNat a.value.length).toUInt8 rfl, join16_split]
  have hn : (be16 f (pos + 2)).toNat = a.value.length := by
    rw [hlength, UInt16.toNat_ofNat', Nat.mod_eq_of_lt a.short]
  have hsub : ∀ l₁ l₂ l₃ : List UInt8, a.image ++ rest = l₁ ++ (l₂ ++ l₃) →
      bytesAt f (pos + l₁.length) l₂.length = l₂ := by
    intro l₁ l₂ l₃ heq
    apply List.ext_getElem?
    intro k
    by_cases hk : k < l₂.length
    · rw [bytesAt_getElem? f _ hk, List.getElem?_eq_getElem hk]
      congr 1
      rw [Nat.add_assoc]
      apply hget
      rw [heq, List.getElem?_append_right (by omega), Nat.add_sub_cancel_left, List.getElem?_append_left hk,
        List.getElem?_eq_getElem hk]
    · rw [List.getElem?_eq_none (by simpa using hk), List.getElem?_eq_none (by simpa using hk)]
  have hvalue : bytesAt f (pos + 4) a.value.length = a.value :=
    hsub (split16 a.code ++ split16 (UInt16.ofNat a.value.length)) a.value (a.padding ++ rest) (by
      simp [StunTlv.image])
  have hpadding : bytesAt f (pos + 4 + a.value.length) a.padding.length = a.padding := by
    have hfront : (split16 a.code ++ split16 (UInt16.ofNat a.value.length) ++ a.value).length =
        4 + a.value.length := by
      simp [split16]
      omega
    rw [Nat.add_assoc, ← hfront]
    exact hsub _ a.padding rest (List.append_assoc _ _ _)
  obtain ⟨code, value, padding, short, padded⟩ := a
  simp only [tlvAt, StunTlv.mk.injEq]
  refine ⟨hcode, ?_, ?_⟩
  · rw [hn]
    exact hvalue
  · rw [hn, ← padded]
    exact hpadding

end NginxDtls
