import NginxDtls.StunEncode

/-! Decoding what was encoded. When the username is a multiple of four the decoder walks the images
of the encoder attribute by attribute and finds every field again. When it is not, the encoder has
placed the attributes at padded positions and counted the username unpadded: the length field is not
a multiple of four and the decoder refuses the message. -/

namespace NginxDtls

open Memory

/-! ### The type field -/

theorem stunTypeField_method (packet : StunPacket) (hm : packet.method.toNat < 4096) :
    ((stunTypeField packet &&& 0x000f) ||| ((stunTypeField packet &&& 0x00e0) >>> (1 : UInt16))
      ||| ((stunTypeField packet &&& 0x3E00) >>> (2 : UInt16))) = packet.method := by
  have hbit : ∀ i (hi : i < 16), 12 ≤ i → packet.method.toBitVec[i] = false := by
    intro i hi h12
    rw [← BitVec.getLsbD_eq_getElem, BitVec.getLsbD]
    exact Nat.testBit_lt_two_pow
      (hm.trans_le (Nat.pow_le_pow_right (by decide) h12 : 2 ^ 12 ≤ 2 ^ i))
  apply UInt16.toBitVec_inj.mp
  cases hk : packet.klass <;>
    simp only [stunTypeField, hk, StunClass.code, UInt16.toBitVec_or, UInt16.toBitVec_and,
      UInt16.toBitVec_shiftLeft, UInt16.toBitVec_shiftRight] <;>
    apply BitVec.eq_of_getLsbD_eq <;> intro i hi <;> interval_cases i <;> simp [hbit]

theorem stunTypeField_class (packet : StunPacket) :
    ((((stunTypeField packet >>> 8).toUInt8.toUInt16 &&& 0x01) <<< (1 : UInt16))
      ||| (((stunTypeField packet).toUInt8.toUInt16 &&& 0x10) >>> (4 : UInt16)))
      = packet.klass.code := by
  apply UInt16.toBitVec_inj.mp
  cases hk : packet.klass <;>
    simp only [stunTypeField, hk, StunClass.code, UInt16.toBitVec_or, UInt16.toBitVec_and,
      UInt16.toBitVec_shiftLeft, UInt16.toBitVec_shiftRight, UInt8.toBitVec_toUInt16,
      UInt16.toBitVec_toUInt8] <;>
    apply BitVec.eq_of_getLsbD_eq <;> intro i hi <;> interval_cases i <;> simp

theorem StunClass.ofCode_code (k : StunClass) : StunClass.ofCode k.code = k := by
  cases k <;> rfl

theorem stunErrorBytes_value {e : UInt16} (he : e.toNat < 25600) :
    (stunErrorBytes e).1.toUInt16 * 100 + (stunErrorBytes e).2.toUInt16 = e := by
  have hcode : (stunErrorBytes e).1.toNat = e.toNat / 100 := by
    simp only [stunErrorBytes, UInt16.toNat_toUInt8, UInt16.toNat_div]
    rw [show UInt16.toNat 100 = 100 by rfl]
    omega
  have hnumber : (stunErrorBytes e).2.toNat = e.toNat % 100 := by
    have h := hcode
    simp only [stunErrorBytes] at h ⊢
    rw [UInt8.toNat_sub, UInt8.toNat_mul, h, UInt16.toNat_toUInt8]
    rw [show UInt8.toNat 100 = 100 by rfl]
    omega
  apply UInt16.toNat_inj.mp
  rw [UInt16.toNat_add, UInt16.toNat_mul, UInt8.toNat_toUInt16, UInt8.toNat_toUInt16, hcode, hnumber,
    show UInt16.toNat 100 = 100 by rfl]
  omega

/-! ### One attribute of the loop -/

/-- The attribute loop gets from `(pos, st, s)` to `(pos', st', s')` in `k` rounds. -/
def StunWalk (len k pos : Nat) (st : StunParseState) (s : Store ProbeObject) (pos' : Nat)
    (st' : StunParseState) (s' : Store ProbeObject) : Prop :=
  ∀ fuel, stunAttributes len (fuel + k) pos st s = stunAttributes len fuel pos' st' s'

theorem StunWalk.trans {len k k' p p' p'' : Nat} {st st' st'' : StunParseState}
    {s s' s'' : Store ProbeObject} (h : StunWalk len k p st s p' st' s')
    (h' : StunWalk len k' p' st' s' p'' st'' s'') :
    StunWalk len (k' + k) p st s p'' st'' s'' := by
  intro fuel
  rw [← Nat.add_assoc, h, h']

section Loop

variable {len pos : Nat} {st st' : StunParseState} {s : Store ProbeObject}

/-- An attribute that starts and ends at a multiple of four and that its case accepts: the loop goes
on behind it. -/
theorem stunAttributes_attribute {code length : UInt16} {bytes : ProbeObject → Nat → UInt8}
    (hhead : Holds (s.bytes .packet) pos ((split16 code).map some ++ (split16 length).map some))
    (hfits : pos + 4 + length.toNat ≤ len) (hlen : len < 65536)
    (halign : (pos + 4 + length.toNat) % 4 = 0)
    (hfp : st.hasFingerprint = false) (hmi : st.hasMessageIntegrity = false)
    (hcase : ∀ s₁ : Store ProbeObject, s₁.bytes = s.bytes →
      ∃ s₂, stunAttributeCase st code length pos s₁ = (some st', s₂) ∧ s₂.bytes = bytes) :
    ∃ s', s'.bytes = bytes ∧ StunWalk len 1 pos st s (pos + 4 + length.toNat) st' s' := by
  obtain ⟨hcode, hlength⟩ := holds_append.mp hhead
  have hnext : (ngxPadTo4BytesFrom2Bytes (UInt16.ofNat (pos + 4 + length.toNat))).toNat =
      pos + 4 + length.toNat := by
    rw [pad_toNat, UInt16.toNat_ofNat']
    omega
  obtain ⟨s₁, hget, hbytes₁⟩ := ngxGet2Bytes_run ProbeObject.packet pos s
  obtain ⟨s₂, hget', hbytes₂⟩ := ngxGet2Bytes_run ProbeObject.packet (pos + 2) s₁
  rw [hcode.be16] at hget
  rw [hbytes₁] at hget' hbytes₂
  rw [show be16 (s.bytes .packet) (pos + 2) = length from hlength.be16] at hget'
  obtain ⟨s₃, hrun, hbytes⟩ := hcase s₂ hbytes₂
  refine ⟨s₃, hbytes, fun fuel => ?_⟩
  rw [stunAttributes, if_pos (by omega), Mem.bind_run, hget, Mem.bind_run, hget']
  dsimp only
  rw [if_neg (Nat.not_lt.mpr hfits), if_neg (by simp [hfp]), if_neg (by simp [hmi]),
    Mem.bind_run, hrun, hnext]

/-- The image of an attribute is its header and its value. -/
theorem holds_stunAttributeImage {f : Nat → UInt8} {attr : StunAttribute} {length : UInt16}
    {value : List (Option UInt8)} (h : Holds f pos (stunAttributeImage attr length value)) :
    Holds f pos ((split16 attr.code).map some ++ (split16 length).map some) ∧
      Holds f (pos + 4) value :=
  holds_append.mp h

/-- The position is a multiple of four inside the message, and neither of the closing attributes has
been seen. -/
structure StunWalking (len pos : Nat) (st : StunParseState) : Prop where
  bound : len < 65536
  aligned : pos % 4 = 0
  noFingerprint : st.hasFingerprint = false
  noIntegrity : st.hasMessageIntegrity = false

/-- An attribute that is there under the condition `c`. Where it is left out the decoder has to be in
the state it would have reached. -/
theorem stunOptional_walk (st' : StunParseState) (bytes : ProbeObject → Nat → UInt8) {c : Prop}
    [Decidable c] {attr : StunAttribute} {length : UInt16} {value img : List (Option UInt8)}
    (himage : img = if c then stunAttributeImage attr length value else [])
    (hw : StunWalking len pos st) (hsize : c → value.length = length.toNat)
    (hmultiple : c → length.toNat % 4 = 0)
    (hfits : pos + img.length ≤ len) (himg : Holds (s.bytes .packet) pos img)
    (hskip : ¬c → st' = st ∧ bytes = s.bytes)
    (hcase : c → Holds (s.bytes .packet) (pos + 4) value → ∀ s₁ : Store ProbeObject,
      s₁.bytes = s.bytes →
        ∃ s₂, stunAttributeCase st attr.code length pos s₁ = (some st', s₂) ∧ s₂.bytes = bytes) :
    ∃ k ≤ 1, ∃ s', s'.bytes = bytes ∧ StunWalk len k pos st s (pos + img.length) st' s' := by
  subst himage
  by_cases h : c
  · simp only [if_pos h] at himg hfits ⊢
    have hend : pos + (stunAttributeImage attr length value).length = pos + 4 + length.toNat := by
      simp [stunAttributeImage, split16, hsize h]
      omega
    obtain ⟨hhead, hvalue⟩ := holds_stunAttributeImage himg
    rw [hend] at hfits ⊢
    refine ⟨1, le_rfl, stunAttributes_attribute hhead hfits hw.bound ?_ hw.noFingerprint
      hw.noIntegrity (hcase h hvalue)⟩
    have haligned := hw.aligned
    have hmult := hmultiple h
    omega
  · obtain ⟨rfl, rfl⟩ := hskip h
    refine ⟨0, by omega, s, rfl, ?_⟩
    rw [if_neg h]
    exact fun _ => rfl

variable {packet : StunPacket}

theorem stunPriority_walk (hw : StunWalking len pos st) (hzero : st.packet.priority = 0)
    (hfits : pos + (stunPriorityImage packet).length ≤ len)
    (himg : Holds (s.bytes .packet) pos (stunPriorityImage packet)) :
    ∃ k ≤ 1, ∃ s', s'.bytes = s.bytes ∧
      StunWalk len k pos st s (pos + (stunPriorityImage packet).length)
        { st with packet := { st.packet with priority := packet.priority } } s' := by
  refine stunOptional_walk _ _ rfl hw (fun _ => rfl) (fun _ => rfl) hfits himg (fun h => ⟨?_, rfl⟩)
    fun _ hvalue s₁ hs₁ => ⟨(ngxGet4Bytes .packet (pos + 4) s₁).2, ?_, hs₁⟩
  · rw [not_not.mp h, ← hzero]
  · have hread : be32 (s₁.bytes .packet) (pos + 4) = packet.priority := by rw [hs₁, hvalue.be32]
    simp [stunAttributeCase, StunAttribute.code, hread]

theorem stunIceControlling_walk (hw : StunWalking len pos st) (hzero : st.packet.iceControlling = 0)
    (hfits : pos + (stunWordImage .iceControlling packet.iceControlling).length ≤ len)
    (himg : Holds (s.bytes .packet) pos (stunWordImage .iceControlling packet.iceControlling)) :
    ∃ k ≤ 1, ∃ s', s'.bytes = s.bytes ∧
      StunWalk len k pos st s
        (pos + (stunWordImage .iceControlling packet.iceControlling).length)
        { st with packet := { st.packet with iceControlling := packet.iceControlling } } s' := by
  refine stunOptional_walk _ _ rfl hw (fun _ => rfl) (fun _ => rfl) hfits himg (fun h => ⟨?_, rfl⟩)
    fun _ hvalue s₁ hs₁ => ⟨(ngxGet8Bytes .packet (pos + 4) s₁).2, ?_, hs₁⟩
  · rw [not_not.mp h, ← hzero]
  · have hread : be64 (s₁.bytes .packet) (pos + 4) = packet.iceControlling := by
      rw [hs₁, hvalue.be64]
    simp [stunAttributeCase, StunAttribute.code, hread]

theorem stunIceControlled_walk (hw : StunWalking len pos st) (hzero : st.packet.iceControlled = 0)
    (hfits : pos + (stunWordImage .iceControlled packet.iceControlled).length ≤ len)
    (himg : Holds (s.bytes .packet) pos (stunWordImage .iceControlled packet.iceControlled)) :
    ∃ k ≤ 1, ∃ s', s'.bytes = s.bytes ∧
      StunWalk len k pos st s (pos + (stunWordImage .iceControlled packet.iceControlled).length)
        { st with packet := { st.packet with iceControlled := packet.iceControlled } } s' := by
  refine stunOptional_walk _ _ rfl hw (fun _ => rfl) (fun _ => rfl) hfits himg (fun h => ⟨?_, rfl⟩)
    fun _ hvalue s₁ hs₁ => ⟨(ngxGet8Bytes .packet (pos + 4) s₁).2, ?_, hs₁⟩
  · rw [not_not.mp h, ← hzero]
  · have hread : be64 (s₁.bytes .packet) (pos + 4) = packet.iceControlled := by
      rw [hs₁, hvalue.be64]
    simp [stunAttributeCase, StunAttribute.code, hread]

theorem stunUseCandidate_walk (hw : StunWalking len pos st)
    (hzero : st.packet.hasUseCandidate = false)
    (hfits : pos + (stunUseCandidateImage packet).length ≤ len)
    (himg : Holds (s.bytes .packet) pos (stunUseCandidateImage packet)) :
    ∃ k ≤ 1, ∃ s', s'.bytes = s.bytes ∧
      StunWalk len k pos st s (pos + (stunUseCandidateImage packet).length)
        { st with packet := { st.packet with hasUseCandidate := packet.hasUseCandidate } } s' := by
  refine stunOptional_walk _ _ rfl hw (fun _ => rfl) (fun _ => rfl) hfits himg (fun h => ⟨?_, rfl⟩)
    fun h _ s₁ hs₁ => ⟨s₁, ?_, hs₁⟩
  · rw [Bool.not_eq_true] at h
    rw [h, ← hzero]
  · simp [stunAttributeCase, StunAttribute.code, h]

theorem stunErrorCode_walk (hw : StunWalking len pos st) (hzero : st.packet.errorCode = 0)
    (herror : packet.errorCode = 0 ∨
      (packet.klass = .errorResponse ∧ packet.errorCode.toNat < 25600))
    (hfits : pos + (stunErrorCodeImage packet).length ≤ len)
    (himg : Holds (s.bytes .packet) pos (stunErrorCodeImage packet)) :
    ∃ k ≤ 1, ∃ s', s'.bytes = s.bytes ∧
      StunWalk len k pos st s (pos + (stunErrorCodeImage packet).length)
        { st with packet := { st.packet with errorCode := packet.errorCode } } s' := by
  refine stunOptional_walk _ _ rfl hw (fun _ => rfl) (fun _ => rfl) hfits himg (fun h => ⟨?_, rfl⟩)
    fun h hvalue s₁ hs₁ => ⟨(ngxGet1Byte .packet (pos + 4 + 3)
      (ngxGet1Byte .packet (pos + 4 + 2) s₁).2).2, ?_, hs₁⟩
  · have hnone : packet.errorCode = 0 := by
      rcases herror with h0 | ⟨hclass, -⟩
      · exact h0
      · simpa [stunAddErrorCode, hclass] using h
    rw [hnone, ← hzero]
  · have hsmall : packet.errorCode.toNat < 25600 := by
      rcases herror with h0 | ⟨-, hlt⟩
      · rw [h0]
        decide
      · exact hlt
    have hclass : s₁.bytes .packet (pos + 4 + 2) = (stunErrorBytes packet.errorCode).1 := by
      rw [hs₁]
      exact hvalue 2 _ rfl
    have hnumber : s₁.bytes .packet (pos + 4 + 3) = (stunErrorBytes packet.errorCode).2 := by
      rw [hs₁]
      exact hvalue 3 _ rfl
    simp [stunAttributeCase, StunAttribute.code, hclass, hnumber, stunErrorBytes_value hsmall]

theorem stunUsername_walk {u : Nat → UInt8} (hw : StunWalking len pos st)
    (hzero : st.packet.usernameLen = 0) (hlen : packet.usernameLen.toNat ≤ 512)
    (hmultiple : packet.usernameLen.toNat % 4 = 0)
    (hfits : pos + (stunUsernameImage packet u).length ≤ len)
    (himg : Holds (s.bytes .packet) pos (stunUsernameImage packet u)) :
    ∃ k ≤ 1, ∃ s', (s'.bytes .packet = s.bytes .packet ∧
        bytesAt (s'.bytes .stunUsername) 0 packet.usernameLen.toNat =
          bytesAt u 0 packet.usernameLen.toNat) ∧
      StunWalk len k pos st s (pos + (stunUsernameImage packet u).length)
        { st with packet := { st.packet with usernameLen := packet.usernameLen } } s' := by
  have hpad : (stunUsernamePaddedLen packet).toNat = packet.usernameLen.toNat := by
    rw [padded_toNat hlen]
    omega
  have hempty : ¬stunUsernamePaddedLen packet ≠ 0 → packet.usernameLen = 0 := by
    intro h
    apply UInt16.toNat_inj.mp
    rw [← hpad, not_not.mp h]
  -- the username and its terminating zero
  have hwalk := stunOptional_walk
      { st with packet := { st.packet with usernameLen := packet.usernameLen } }
      (if stunUsernamePaddedLen packet ≠ 0 then
        Function.update s.bytes .stunUsername (overlay (overlay (s.bytes .stunUsername) 0
          ((bytesAt (s.bytes .packet) (pos + 4) packet.usernameLen.toNat).map some))
          packet.usernameLen.toNat [some 0])
        else s.bytes)
      (rfl : stunUsernameImage packet u = _) hw (fun _ => by simp [hpad]) (fun _ => hmultiple) hfits
      himg (fun h => ⟨by rw [hempty h, ← hzero], if_neg h⟩) fun h _ s₁ hs₁ => by
    have hshort : ¬packet.usernameLen.toNat ≥ stunUsernameSize := by
      rw [stunUsernameSize]
      omega
    rw [if_pos h]
    refine ⟨_, by rw [stunAttributeCase, if_pos rfl, if_neg hshort]; rfl, ?_⟩
    simp [ngxMemcpy, writeByte, Store.set, hs₁]
  obtain ⟨k, hk, s', hbytes, hrun⟩ := hwalk
  refine ⟨k, hk, s', ?_, hrun⟩
  by_cases h : stunUsernamePaddedLen packet ≠ 0
  · rw [if_pos h] at hbytes
    rw [stunUsernameImage, if_pos h] at himg
    have hvalue := (holds_append.mp (holds_stunAttributeImage himg).2).1
    have hname := holds_map_some hvalue
    rw [bytesAt_length] at hname
    refine ⟨by rw [hbytes, Function.update_of_ne (by decide)], ?_⟩
    rw [hbytes, Function.update_self, hname]
    have hheld : Holds (overlay (overlay (s.bytes .stunUsername) 0
        ((bytesAt u 0 packet.usernameLen.toNat).map some)) packet.usernameLen.toNat [some 0]) 0
        ((bytesAt u 0 packet.usernameLen.toNat).map some) := by
      refine (holds_overlay (s.bytes .stunUsername) 0 _).congr fun k _ hk => overlay_of_lt ?_
      simpa using hk
    simpa using holds_map_some hheld
  · rw [if_neg h] at hbytes
    refine ⟨by rw [hbytes], ?_⟩
    rw [hempty h]
    rfl

/-- The fields of `packet` that attributes carry, in the decoder's packet. -/
def stunDecoded (p packet : StunPacket) : StunPacket :=
  { p with
    usernameLen := packet.usernameLen
    priority := packet.priority
    iceControlling := packet.iceControlling
    iceControlled := packet.iceControlled
    hasUseCandidate := packet.hasUseCandidate
    errorCode := packet.errorCode }

end Loop

/-! ### The whole message -/

/-- A packet the round trip is about. The transaction id does not lie in the buffer that is written. -/
structure StunEncodable (packet : StunPacket) : Prop where
  method_lt : packet.method.toNat < 4096
  username_le : packet.usernameLen.toNat ≤ 512
  mapped : packet.xorMappedAddress = none
  password : packet.passwordLen = 0
  error : packet.errorCode = 0 ∨
    (packet.klass = .errorResponse ∧ packet.errorCode.toNat < 25600)
  transactionId : packet.transactionId.object ≠ .reply

section Message

variable {packet : StunPacket} {s t : Store ProbeObject}

theorem stunPriorityImage_length_mod (packet : StunPacket) :
    (stunPriorityImage packet).length % 4 = 0 := by
  rw [stunPriorityImage]
  split_ifs <;> simp [stunAttributeImage, split16, split32]

theorem stunWordImage_length_mod (attr : StunAttribute) (value : UInt64) :
    (stunWordImage attr value).length % 4 = 0 := by
  rw [stunWordImage]
  split_ifs <;> simp [stunAttributeImage, split16, split64]

theorem stunUseCandidateImage_length_mod (packet : StunPacket) :
    (stunUseCandidateImage packet).length % 4 = 0 := by
  rw [stunUseCandidateImage]
  split_ifs <;> simp [stunAttributeImage, split16]

theorem stunErrorCodeImage_length_mod (packet : StunPacket) :
    (stunErrorCodeImage packet).length % 4 = 0 := by
  rw [stunErrorCodeImage]
  split_ifs <;> simp [stunAttributeImage, split16]

theorem stunRestImage_length_mod (packet : StunPacket) : (stunRestImage packet).length % 4 = 0 := by
  have hpriority := stunPriorityImage_length_mod packet
  have hcontrolling := stunWordImage_length_mod .iceControlling packet.iceControlling
  have hcontrolled := stunWordImage_length_mod .iceControlled packet.iceControlled
  have hcandidate := stunUseCandidateImage_length_mod packet
  have herror := stunErrorCodeImage_length_mod packet
  simp only [stunRestImage, List.length_append]
  omega

/-- `packet->size` is the image without the padding of the username. -/
theorem stunSerializedSize_eq (hxor : packet.xorMappedAddress = none) (hpass : packet.passwordLen = 0) :
    stunSerializedSize packet =
      20 + (if 0 < packet.usernameLen.toNat then 4 + packet.usernameLen.toNat else 0)
        + (stunRestImage packet).length := by
  have hxor' : stunXorMappedLen packet = none := by simp [stunXorMappedLen, hxor]
  have hmi : stunAddMessageIntegrity packet = false := by simp [stunAddMessageIntegrity, hpass]
  have hpos : (0 < packet.usernameLen) ↔ 0 < packet.usernameLen.toNat := UInt16.lt_iff_toNat_lt
  simp only [stunSerializedSize, hxor', hmi, stunAddFingerprint, hpos, stunRestImage,
    stunPriorityImage, stunWordImage, stunUseCandidateImage, stunErrorCodeImage, List.length_append,
    apply_ite List.length]
  simp [stunAttributeImage, split16, split32, split64]
  omega

theorem stunSerializedSize_lt (h : StunEncodable packet) : stunSerializedSize packet < 65536 := by
  have hlen := h.username_le
  have hrest : (stunRestImage packet).length ≤ 44 := by
    simp only [stunRestImage, stunPriorityImage, stunWordImage, stunUseCandidateImage,
      stunErrorCodeImage, List.length_append]
    split_ifs <;> simp [stunAttributeImage, split16, split32, split64]
  rw [stunSerializedSize_eq h.mapped h.password]
  split_ifs <;> omega

/-- A decoder packet before the first attribute. -/
structure StunBlank (p : StunPacket) : Prop where
  usernameLen : p.usernameLen = 0
  priority : p.priority = 0
  iceControlling : p.iceControlling = 0
  iceControlled : p.iceControlled = 0
  hasUseCandidate : p.hasUseCandidate = false
  errorCode : p.errorCode = 0

theorem stunBody_walk (h : StunEncodable packet) (hmult : packet.usernameLen.toNat % 4 = 0)
    {p : StunPacket} (hblank : StunBlank p) {u : Nat → UInt8} {len : Nat} (hlt : len < 65536)
    (hlen : 20 + (stunUsernameImage packet u ++ stunRestImage packet).length = len)
    (himg : Holds (t.bytes .packet) 20 (stunUsernameImage packet u ++ stunRestImage packet)) :
    ∃ k ≤ 6, ∃ t', t'.bytes .packet = t.bytes .packet ∧
      bytesAt (t'.bytes .stunUsername) 0 packet.usernameLen.toNat =
        bytesAt u 0 packet.usernameLen.toNat ∧
      StunWalk len k 20 { packet := p } t len { packet := stunDecoded p packet } t' := by
  have haligned : ∀ n, n % 4 = 0 → ∀ q, StunWalking len n { packet := q } :=
    fun n hn q => ⟨hlt, hn, rfl, rfl⟩
  simp only [stunRestImage, List.length_append] at hlen
  obtain ⟨himg₁, himg⟩ := holds_append.mp himg
  obtain ⟨himg₂, himg⟩ := holds_append.mp himg
  obtain ⟨himg₃, himg⟩ := holds_append.mp himg
  obtain ⟨himg₄, himg⟩ := holds_append.mp himg
  obtain ⟨himg₅, himg₆⟩ := holds_append.mp himg
  have hmod₁ : (stunUsernameImage packet u).length % 4 = 0 := by
    rw [stunUsernameImage_length h.username_le]
    split_ifs <;> omega
  have hmod₂ := stunPriorityImage_length_mod packet
  have hmod₃ := stunWordImage_length_mod .iceControlling packet.iceControlling
  have hmod₄ := stunWordImage_length_mod .iceControlled packet.iceControlled
  have hmod₅ := stunUseCandidateImage_length_mod packet
  obtain ⟨k₁, hk₁, t₁, ⟨hp₁, hu⟩, hrun₁⟩ := stunUsername_walk (haligned 20 rfl p)
    hblank.usernameLen h.username_le hmult (by omega) himg₁
  rw [← hp₁] at himg₂ himg₃ himg₄ himg₅ himg₆
  obtain ⟨k₂, hk₂, t₂, hp₂, hrun₂⟩ := stunPriority_walk
    (haligned _ (by omega) { p with usernameLen := packet.usernameLen }) hblank.priority (by omega) himg₂
  rw [← hp₂] at himg₃ himg₄ himg₅ himg₆
  obtain ⟨k₃, hk₃, t₃, hp₃, hrun₃⟩ := stunIceControlling_walk
    (haligned _ (by omega)
      { p with usernameLen := packet.usernameLen, priority := packet.priority })
    hblank.iceControlling (by omega) himg₃
  rw [← hp₃] at himg₄ himg₅ himg₆
  obtain ⟨k₄, hk₄, t₄, hp₄, hrun₄⟩ := stunIceControlled_walk
    (haligned _ (by omega)
      { p with
        usernameLen := packet.usernameLen
        priority := packet.priority
        iceControlling := packet.iceControlling })
    hblank.iceControlled (by omega) himg₄
  rw [← hp₄] at himg₅ himg₆
  obtain ⟨k₅, hk₅, t₅, hp₅, hrun₅⟩ := stunUseCandidate_walk
    (haligned _ (by omega)
      { p with
        usernameLen := packet.usernameLen
        priority := packet.priority
        iceControlling := packet.iceControlling
        iceControlled := packet.iceControlled })
    hblank.hasUseCandidate (by omega) himg₅
  rw [← hp₅] at himg₆
  obtain ⟨k₆, hk₆, t₆, hp₆, hrun₆⟩ := stunErrorCode_walk
    (haligned _ (by omega)
      { p with
        usernameLen := packet.usernameLen
        priority := packet.priority
        iceControlling := packet.iceControlling
        iceControlled := packet.iceControlled
        hasUseCandidate := packet.hasUseCandidate })
    hblank.errorCode h.error (by omega) himg₆
  have hsame : t₆.bytes = t₁.bytes := by rw [hp₆, hp₅, hp₄, hp₃, hp₂]
  have hend : 20 + (stunUsernameImage packet u).length + (stunPriorityImage packet).length
      + (stunWordImage .iceControlling packet.iceControlling).length
      + (stunWordImage .iceControlled packet.iceControlled).length
      + (stunUseCandidateImage packet).length + (stunErrorCodeImage packet).length = len := by
    omega
  have hall := hrun₁.trans (hrun₂.trans (hrun₃.trans (hrun₄.trans (hrun₅.trans hrun₆))))
  rw [hend] at hall
  exact ⟨_, by omega, t₆, by rw [hsame, hp₁], by rw [hsame, hu], hall⟩

/-- What the decoder has to find again of the packet `packet` that was encoded from `s`. -/
structure StunAgree (packet : StunPacket) (s : Store ProbeObject) (packet' : StunPacket)
    (t : Store ProbeObject) : Prop where
  klass : packet'.klass = packet.klass
  method : packet'.method = packet.method
  transactionId : bytesAt (t.bytes packet'.transactionId.object) packet'.transactionId.offset 12 =
    bytesAt (s.bytes packet.transactionId.object) packet.transactionId.offset 12
  usernameLen : packet'.usernameLen = packet.usernameLen
  username : bytesAt (t.bytes .stunUsername) 0 packet.usernameLen.toNat =
    bytesAt (s.bytes .stunUsername) 0 packet.usernameLen.toNat
  priority : packet'.priority = packet.priority
  iceControlling : packet'.iceControlling = packet.iceControlling
  iceControlled : packet'.iceControlled = packet.iceControlled
  hasUseCandidate : packet'.hasUseCandidate = packet.hasUseCandidate
  errorCode : packet'.errorCode = packet.errorCode

/-- Decoding the first `packet->size` bytes of the buffer, with a zeroed packet, succeeds and finds
everything again. -/
def StunRoundTrip (hmac : List UInt8 → List UInt8 → List UInt8) (packet : StunPacket) (len : Nat)
    (s : Store ProbeObject) : Prop :=
  let encoded := ngxStunSerialize hmac packet len s
  ∀ t : Store ProbeObject,
    (∀ i < encoded.1.2.size, t.bytes .packet i = encoded.2.bytes .reply i) →
    ∃ packet' t', ngxStunParse {} encoded.1.2.size t = (some (.ok, packet'), t') ∧
      StunAgree packet s packet' t'

theorem ngxStunSerialize_ok_iff (hmac : List UInt8 → List UInt8 → List UInt8) {len : Nat} :
    (ngxStunSerialize hmac packet len s).1.1 = .ok ↔ stunSerializedSize packet ≤ len := by
  rw [ngxStunSerialize]
  by_cases h : stunSerializedSize packet > len
  · rw [if_pos h]
    simp only [Mem.pure_run, reduceCtorEq, false_iff]
    omega
  · rw [if_neg h]
    simp only [Mem.bind_run, Mem.pure_run, true_iff]
    omega

/-- The length field of the encoder. -/
theorem stunLengthField_toNat (h : StunEncodable packet) :
    (UInt16.ofNat (stunSerializedSize packet) - 20).toNat = stunSerializedSize packet - 20 := by
  have hlt := stunSerializedSize_lt h
  have hge : 20 ≤ stunSerializedSize packet := by
    rw [stunSerializedSize_eq h.mapped h.password]
    omega
  rw [UInt16.toNat_sub, UInt16.toNat_ofNat', show UInt16.toNat 20 = 20 by rfl]
  omega

theorem stunLengthField_aligned_iff (h : StunEncodable packet) :
    (UInt16.ofNat (stunSerializedSize packet) - 20) &&& 0x03 = 0 ↔
      packet.usernameLen.toNat % 4 = 0 := by
  have hrest := stunRestImage_length_mod packet
  have hlow : ((UInt16.ofNat (stunSerializedSize packet) - 20) &&& 0x03).toNat =
      (stunSerializedSize packet - 20) % 4 := by
    rw [UInt16.toNat_and, stunLengthField_toNat h]
    exact Nat.and_two_pow_sub_one_eq_mod _ 2
  rw [← UInt16.toNat_inj, hlow, stunSerializedSize_eq h.mapped h.password, show UInt16.toNat 0 = 0 by rfl]
  split_ifs <;> omega

/-- A length field that is not a multiple of four is refused. -/
theorem ngxStunParse_unaligned {p : StunPacket} {len : Nat}
    (h : be16 (t.bytes .packet) 2 &&& 0x03 ≠ 0) :
    ∃ t', ngxStunParse p len t = (some (.error, p), t') := by
  obtain ⟨t₁, hget, hbytes⟩ := ngxGet2Bytes_run ProbeObject.packet 0 t
  obtain ⟨t₂, hget', -⟩ := ngxGet2Bytes_run ProbeObject.packet 2 t₁
  rw [hbytes] at hget'
  refine ⟨t₂, ?_⟩
  rw [ngxStunParse, Mem.bind_run, hget, Mem.bind_run, hget']
  dsimp only
  rw [if_pos (Or.inr h), Mem.pure_run]

/-- Past the header checks the decoder returns what the attribute loop returns, if that ends at the
end of the message and has seen no fingerprint. -/
theorem ngxStunParse_ok {p q : StunPacket} {len : Nat} {P : Store ProbeObject → Prop}
    (hlen : (be16 (t.bytes .packet) 2).toNat = (len + 2 ^ 64 - 20) % 2 ^ 64)
    (haligned : be16 (t.bytes .packet) 2 &&& 0x03 = 0)
    (hloop : ∀ t₁ : Store ProbeObject, t₁.bytes = t.bytes → ∃ t₂,
      stunAttributes len (len + 1) 20 { packet := stunParsedHeader p (t.bytes .packet) } t₁ =
        (some (.finished len { packet := q }), t₂) ∧ P t₂) :
    ∃ t', ngxStunParse p len t = (some (.ok, q), t') ∧ P t' := by
  obtain ⟨t₁, hget, hbytes⟩ := ngxGet2Bytes_run ProbeObject.packet 0 t
  obtain ⟨t₂, hget', hbytes'⟩ := ngxGet2Bytes_run ProbeObject.packet 2 t₁
  rw [hbytes] at hget' hbytes'
  obtain ⟨t₃, hrun, hP⟩ := hloop (readByte .packet 1 (readByte .packet 0 t₂).2).2 hbytes'
  refine ⟨t₃, ?_, hP⟩
  rw [ngxStunParse, Mem.bind_run, hget, Mem.bind_run, hget']
  dsimp only
  rw [if_neg (by simp [hlen, haligned]), Mem.bind_run, Mem.bind_run, Mem.bind_run]
  simp only [readByte_run, Store.log_bytes, hbytes', stunParsedHeader] at hrun ⊢
  rw [hrun]
  simp [stunParseTail]

theorem stunHeaderImage_length (packet : StunPacket) (tid : List UInt8) :
    (stunHeaderImage packet tid).length = 8 + tid.length := by
  simp [stunHeaderImage, split16, stunMagicCookie]
  omega

theorem stunImage_length (hlen : packet.usernameLen.toNat ≤ 512) : (stunImage packet s).length =
    20 + (if 0 < packet.usernameLen.toNat then 4 + (packet.usernameLen.toNat + 3) / 4 * 4 else 0)
      + (stunRestImage packet).length := by
  rw [stunImage, List.length_append, List.length_append, stunUsernameImage_length hlen,
    stunHeaderImage_length, bytesAt_length, ← Nat.add_assoc]

/-- The header read back. -/
structure StunHeaderRead (packet : StunPacket) (tid : List UInt8) (f : Nat → UInt8) : Prop where
  high : f 0 = (stunTypeField packet >>> 8).toUInt8
  low : f 1 = (stunTypeField packet).toUInt8
  msgType : be16 f 0 = stunTypeField packet
  msgLength : be16 f 2 = UInt16.ofNat packet.size - 20
  transactionId : bytesAt f 8 tid.length = tid

theorem stunHeaderImage_read {f : Nat → UInt8} {tid : List UInt8}
    (h : Holds f 0 (stunHeaderImage packet tid)) : StunHeaderRead packet tid f := by
  obtain ⟨h, htid⟩ := holds_append.mp h
  obtain ⟨h, -⟩ := holds_append.mp h
  obtain ⟨htype, hlength⟩ := holds_append.mp h
  exact ⟨htype 0 _ rfl, htype 1 _ rfl, htype.be16, hlength.be16, holds_map_some htid⟩

theorem stunParsedHeader_eq {f : Nat → UInt8} {tid : List UInt8} (h : StunHeaderRead packet tid f)
    (hm : packet.method.toNat < 4096) (p : StunPacket) : stunParsedHeader p f =
      { p with klass := packet.klass, method := packet.method, transactionId := ⟨.packet, 8⟩ } := by
  rw [stunParsedHeader, h.high, h.low, h.msgType, stunTypeField_method packet hm,
    stunTypeField_class, StunClass.ofCode_code]

/-- With a padded username the decoder refuses what the encoder has written. -/
theorem ngxStunParse_stunImage_refused (h : StunEncodable packet)
    (hne : packet.usernameLen.toNat % 4 ≠ 0)
    (himg : Holds (t.bytes .packet) 0 (stunImage packet s)) :
    ∃ t', ngxStunParse {} (stunSerializedSize packet) t = (some (.error, {}), t') := by
  have hhead := stunHeaderImage_read (holds_append.mp himg).1
  refine ngxStunParse_unaligned ?_
  rw [hhead.msgLength]
  exact fun h0 => hne ((stunLengthField_aligned_iff h).mp h0)

theorem ngxStunParse_stunImage (h : StunEncodable packet) (hmult : packet.usernameLen.toNat % 4 = 0)
    (himg : Holds (t.bytes .packet) 0 (stunImage packet s)) :
    ∃ packet' t', ngxStunParse {} (stunSerializedSize packet) t = (some (.ok, packet'), t') ∧
      StunAgree packet s packet' t' := by
  have hlt := stunSerializedSize_lt h
  have hsize := stunSerializedSize_eq h.mapped h.password
  obtain ⟨himg, hbody⟩ := holds_append.mp himg
  have hhead := stunHeaderImage_read himg
  have hfield := stunLengthField_toNat h
  have hmid : (stunUsernameImage packet (s.bytes .stunUsername) ++ stunRestImage packet).length + 20 =
      stunSerializedSize packet := by
    rw [List.length_append, stunUsernameImage_length h.username_le, hsize]
    split_ifs <;> omega
  have hblank : StunBlank
      { klass := packet.klass, method := packet.method, transactionId := ⟨.packet, 8⟩ } :=
    ⟨rfl, rfl, rfl, rfl, rfl, rfl⟩
  refine ⟨stunDecoded
    { klass := packet.klass, method := packet.method, transactionId := ⟨.packet, 8⟩ } packet, ?_⟩
  refine ngxStunParse_ok ?_ ?_ fun t₁ ht₁ => ?_
  · rw [hhead.msgLength, hfield]
    omega
  · rw [hhead.msgLength]
    exact (stunLengthField_aligned_iff h).mpr hmult
  · rw [stunHeaderImage_length, bytesAt_length, ← ht₁] at hbody
    obtain ⟨k, hk, t₂, hpacket, hname, hwalk⟩ := stunBody_walk h hmult hblank hlt
      (by omega) hbody
    refine ⟨t₂, ?_, ?_⟩
    · have hfuel := hwalk (stunSerializedSize packet - k + 1)
      rw [show stunSerializedSize packet - k + 1 + k = stunSerializedSize packet + 1 by omega] at hfuel
      rw [stunParsedHeader_eq hhead h.method_lt, hfuel, stunAttributes, if_neg (by omega)]
      rfl
    · refine ⟨rfl, rfl, ?_, rfl, hname, rfl, rfl, rfl, rfl, rfl⟩
      have htid := hhead.transactionId
      rw [bytesAt_length] at htid
      rw [stunDecoded, hpacket, ht₁, htid]

section RoundTrip

variable {hmac : List UInt8 → List UInt8 → List UInt8} {len : Nat} (h : StunEncodable packet)
  (hok : (ngxStunSerialize hmac packet len s).1.1 = .ok)

include h hok

/-- The encoder's half: the size it stores and the bytes it leaves behind. -/
theorem ngxStunSerialize_written :
    (ngxStunSerialize hmac packet len s).1.2.size = stunSerializedSize packet ∧
      (ngxStunSerialize hmac packet len s).2.bytes .reply =
        overlay (s.bytes .reply) 0 (stunImage packet s) := by
  have hemits := ngxStunSerialize_emits (s := s) hmac h.username_le h.mapped h.password
    h.transactionId ((ngxStunSerialize_ok_iff hmac).mp hok)
  exact ⟨by rw [hemits.1], by rw [hemits.2, Function.update_self]⟩

theorem stunRoundTrip_of_multiple (hmult : packet.usernameLen.toNat % 4 = 0) :
    StunRoundTrip hmac packet len s := by
  obtain ⟨hsize, hreply⟩ := ngxStunSerialize_written h hok
  have hlength : (stunImage packet s).length = stunSerializedSize packet := by
    rw [stunImage_length h.username_le, stunSerializedSize_eq h.mapped h.password]
    split_ifs <;> omega
  intro t ht
  rw [hsize, hreply] at ht
  rw [hsize]
  exact ngxStunParse_stunImage h hmult
    ((holds_overlay (s.bytes .reply) 0 _).congr fun k _ hk => ht k (by omega))

theorem not_stunRoundTrip (hne : packet.usernameLen.toNat % 4 ≠ 0) :
    ¬StunRoundTrip hmac packet len s := by
  intro hround
  obtain ⟨hsize, hreply⟩ := ngxStunSerialize_written h hok
  have himg : Holds (overlay (s.bytes .reply) 0 (stunImage packet s)) 0 (stunImage packet s) :=
    holds_overlay (s.bytes .reply) 0 _
  obtain ⟨packet', t', hparse, -⟩ := hround
    ⟨fun _ => overlay (s.bytes .reply) 0 (stunImage packet s), []⟩ fun _ _ => by rw [hreply]
  obtain ⟨t'', hrefused⟩ := ngxStunParse_stunImage_refused h hne
    (t := ⟨fun _ => overlay (s.bytes .reply) 0 (stunImage packet s), []⟩) himg
  rw [hsize, hrefused] at hparse
  simp at hparse

end RoundTrip

/-- **Round trip.** What `ngx_stun_serialize` accepts decodes to itself exactly when the length of
the username is a multiple of four. -/
theorem ngxStunSerialize_roundTrip_iff (hmac : List UInt8 → List UInt8 → List UInt8)
    (packet : StunPacket) (len : Nat) (s : Store ProbeObject) (h : StunEncodable packet)
    (hok : (ngxStunSerialize hmac packet len s).1.1 = .ok) :
    StunRoundTrip hmac packet len s ↔ packet.usernameLen.toNat % 4 = 0 := by
  constructor
  · intro hround
    by_contra hne
    exact not_stunRoundTrip h hok hne hround
  · exact stunRoundTrip_of_multiple h hok

/-- A binding request with a username of `n` bytes and a priority. -/
def stunRequest (n : UInt16) : StunPacket :=
  { method := stunBinding, transactionId := ⟨.packet, 8⟩, usernameLen := n, priority := 1 }

theorem stunRequest_encodable {n : UInt16} (hn : n.toNat ≤ 512) : StunEncodable (stunRequest n) :=
  ⟨(by decide : UInt16.toNat stunBinding < 4096), hn, rfl, rfl, .inl rfl,
    (by decide : ProbeObject.packet ≠ .reply)⟩

theorem stunRequest_eight_roundTrip :
    StunRoundTrip (fun _ _ => []) (stunRequest 8) 40 ⟨fun _ _ => 0, []⟩ :=
  (ngxStunSerialize_roundTrip_iff _ (stunRequest 8) 40 ⟨fun _ _ => 0, []⟩
    (stunRequest_encodable (by decide)) ((ngxStunSerialize_ok_iff _).mpr (by decide))).mpr (by decide)

/-- A username of five bytes: encoded into 37 bytes, which the decoder refuses. -/
theorem stunRequest_five_not_roundTrip : StunEncodable (stunRequest 5) ∧
    (ngxStunSerialize (fun _ _ => []) (stunRequest 5) 40 ⟨fun _ _ => 0, []⟩).1.1 = .ok ∧
    ¬StunRoundTrip (fun _ _ => []) (stunRequest 5) 40 ⟨fun _ _ => 0, []⟩ := by
  have hencodable := stunRequest_encodable (n := 5) (by decide)
  have hok : (ngxStunSerialize (fun _ _ => []) (stunRequest 5) 40 ⟨fun _ _ => 0, []⟩).1.1 = .ok :=
    (ngxStunSerialize_ok_iff _).mpr (by decide)
  exact ⟨hencodable, hok, not_stunRoundTrip hencodable hok (by decide)⟩

end Message

end NginxDtls
