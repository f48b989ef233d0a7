import NginxDtls.Stun

/-! What `ngx_stun_serialize` leaves in the buffer when there is neither a mapped address nor a
password: the image of the header followed by the images of the attributes. The bytes behind a
username that is not a multiple of four are skipped, not written. -/

namespace NginxDtls

open Memory

theorem pad_toNat (size : UInt16) :
    (ngxPadTo4BytesFrom2Bytes size).toNat = (size.toNat + 3) / 4 * 4 % 65536 := by
  have hlt := size.toNat_lt
  have hlow : (size &&& 0x03).toNat = size.toNat % 4 := by
    rw [UInt16.toNat_and]
    exact Nat.and_two_pow_sub_one_eq_mod size.toNat 2
  have hhigh : (size &&& 0xFFFC).toNat = size.toNat / 4 * 4 := by
    rw [UInt16.toNat_and]
    apply Nat.eq_of_testBit_eq
    intro i
    rw [show size.toNat / 4 * 4 = (size.toNat >>> 2) <<< 2 by
      rw [Nat.shiftRight_eq_div_pow, Nat.shiftLeft_eq]]
    rw [Nat.testBit_and, Nat.testBit_shiftLeft, Nat.testBit_shiftRight]
    by_cases hi : i < 16
    · interval_cases i <;> simp <;> exact fun _ => by decide
    · have hbig : size.toNat.testBit i = false := Nat.testBit_lt_two_pow
        (hlt.trans_le (Nat.pow_le_pow_right (by decide) (by omega)))
      rw [hbig]
      by_cases hi2 : i ≥ 2
      · rw [show 2 + (i - 2) = i by omega, hbig]
        simp
      · omega
  rw [ngxPadTo4BytesFrom2Bytes]
  split_ifs with h
  · have hne : size.toNat % 4 ≠ 0 := by
      intro h0
      exact h (UInt16.toNat_inj.mp (by rw [hlow, h0]; rfl))
    rw [UInt16.toNat_add, hhigh, show UInt16.toNat 4 = 4 by rfl]
    omega
  · have hz : size.toNat % 4 = 0 := by
      have := congrArg UInt16.toNat (not_not.mp h)
      rw [hlow] at this
      exact this
    omega

/-! ### Images -/

/-- The image of an attribute: type, length, value. -/
def stunAttributeImage (attr : StunAttribute) (length : UInt16) (value : List (Option UInt8)) :
    List (Option UInt8) :=
  (split16 attr.code).map some ++ (split16 length).map some ++ value

def stunUsernameImage (packet : StunPacket) (username : Nat → UInt8) : List (Option UInt8) :=
  if stunUsernamePaddedLen packet ≠ 0 then
    stunAttributeImage .username packet.usernameLen
      ((bytesAt username 0 packet.usernameLen.toNat).map some
        ++ List.replicate ((stunUsernamePaddedLen packet).toNat - packet.usernameLen.toNat) none)
  else []

def stunPriorityImage (packet : StunPacket) : List (Option UInt8) :=
  if packet.priority ≠ 0 then
    stunAttributeImage .priority 4 ((split32 packet.priority).map some) else []

def stunWordImage (attr : StunAttribute) (value : UInt64) : List (Option UInt8) :=
  if value ≠ 0 then stunAttributeImage attr 8 ((split64 value).map some) else []

def stunUseCandidateImage (packet : StunPacket) : List (Option UInt8) :=
  if packet.hasUseCandidate then stunAttributeImage .useCandidate 0 [] else []

def stunErrorCodeImage (packet : StunPacket) : List (Option UInt8) :=
  if stunAddErrorCode packet then
    stunAttributeImage .errorCode 4 ((split16 0).map some
      ++ [some (stunErrorBytes packet.errorCode).1, some (stunErrorBytes packet.errorCode).2])
  else []

/-- Everything behind the username. -/
def stunRestImage (packet : StunPacket) : List (Option UInt8) :=
  stunPriorityImage packet ++ (stunWordImage .iceControlling packet.iceControlling
    ++ (stunWordImage .iceControlled packet.iceControlled ++ (stunUseCandidateImage packet
      ++ stunErrorCodeImage packet)))

def stunHeaderImage (packet : StunPacket) (transactionId : List UInt8) : List (Option UInt8) :=
  (split16 (stunTypeField packet)).map some ++ (split16 (UInt16.ofNat packet.size - 20)).map some
    ++ stunMagicCookie.map some ++ transactionId.map some

/-! ### The encoder lays down its images -/

section Encode

variable {s : Store ProbeObject} {packet : StunPacket} {pos : Nat}

theorem stunAttributeHeader_emits (attr : StunAttribute) (length : UInt16) :
    Emits s .reply pos ((split16 attr.code).map some ++ (split16 length).map some)
      (stunAttributeHeader pos attr length) () :=
  (Emits.storeBack _).bind (Emits.storeBack _)

/-- Header and value of an attribute, and the position behind it. -/
theorem stunAttribute_emits {attr : StunAttribute} {length : UInt16}
    {value : List (Option UInt8)} {m : Mem ProbeObject Unit} {next : Nat}
    (hm : ∀ s', s'.bytes .stunUsername = s.bytes .stunUsername →
      Emits s' .reply (pos + 4) value m ()) :
    Emits s .reply pos (stunAttributeImage attr length value)
      (do stunAttributeHeader pos attr length; m; pure next) next := by
  have hhead : Emits s .reply pos ((split16 attr.code).map some ++ (split16 length).map some)
      (stunAttributeHeader pos attr length) () := stunAttributeHeader_emits attr length
  have hkeep : ((stunAttributeHeader pos attr length) s).2.bytes .stunUsername
      = s.bytes .stunUsername := by
    rw [hhead.2]
    simp
  have hvalue : Emits (stunAttributeHeader pos attr length s).2 .reply (pos + 4) (value ++ [])
      (m >>= fun _ => pure next) next := (hm _ hkeep).bind (Emits.pure next)
  rw [List.append_nil] at hvalue
  exact hhead.bind hvalue

theorem padded_ne_zero_iff (hlen : packet.usernameLen.toNat ≤ 512) :
    stunUsernamePaddedLen packet ≠ 0 ↔ 0 < packet.usernameLen.toNat := by
  have hpad := pad_toNat packet.usernameLen
  rw [stunUsernamePaddedLen]
  constructor
  · intro h
    by_contra hz
    rw [if_neg (by rw [UInt16.lt_iff_toNat_lt]; simpa using hz)] at h
    exact h rfl
  · intro h
    rw [if_pos (by rw [UInt16.lt_iff_toNat_lt]; simpa using h)]
    intro h0
    have := congrArg UInt16.toNat h0
    rw [hpad, show UInt16.toNat 0 = 0 by rfl] at this
    omega

theorem padded_toNat (hlen : packet.usernameLen.toNat ≤ 512) :
    (stunUsernamePaddedLen packet).toNat = (packet.usernameLen.toNat + 3) / 4 * 4 := by
  have hpad := pad_toNat packet.usernameLen
  rw [stunUsernamePaddedLen]
  split_ifs with h
  · rw [hpad]
    omega
  · have hz : packet.usernameLen.toNat = 0 := by
      rw [UInt16.lt_iff_toNat_lt] at h
      simpa using h
    rw [hz]
    rfl

theorem stunUsernameImage_length (hlen : packet.usernameLen.toNat ≤ 512) (u : Nat → UInt8) :
    (stunUsernameImage packet u).length =
      if 0 < packet.usernameLen.toNat then 4 + (packet.usernameLen.toNat + 3) / 4 * 4 else 0 := by
  rw [stunUsernameImage, apply_ite List.length]
  simp only [padded_ne_zero_iff hlen]
  split_ifs
  · simp [stunAttributeImage, split16, padded_toNat hlen]
    omega
  · rfl

theorem stunAddUsername_emits (hlen : packet.usernameLen.toNat ≤ 512) :
    Emits s .reply pos (stunUsernameImage packet (s.bytes .stunUsername))
      (stunAddUsername packet pos)
      (pos + (stunUsernameImage packet (s.bytes .stunUsername)).length) := by
  by_cases h : stunUsernamePaddedLen packet ≠ 0
  · have hnext : pos + (stunUsernameImage packet (s.bytes .stunUsername)).length =
        pos + 4 + (stunUsernamePaddedLen packet).toNat := by
      rw [stunUsernameImage_length hlen, if_pos ((padded_ne_zero_iff hlen).mp h), padded_toNat hlen]
      omega
    rw [hnext, stunAddUsername, if_pos h, stunUsernameImage, if_pos h]
    refine stunAttribute_emits fun s' hs' => Emits.pad ?_ _
    rw [← hs']
    exact ⟨rfl, rfl⟩
  · rw [stunAddUsername, if_neg h, stunUsernameImage, if_neg h]
    exact Emits.pure pos

theorem stunAddPriority_emits : Emits s .reply pos (stunPriorityImage packet)
    (stunAddPriority packet pos) (pos + (stunPriorityImage packet).length) := by
  rw [stunPriorityImage, stunAddPriority]
  by_cases h : packet.priority ≠ 0
  · rw [if_pos h, if_pos h]
    exact stunAttribute_emits fun _ _ => Emits.storeBack _
  · rw [if_neg h, if_neg h]
    exact Emits.pure pos

theorem stunAddWord_emits (attr : StunAttribute) (value : UInt64) :
    Emits s .reply pos (stunWordImage attr value) (stunAddWord attr value pos)
      (pos + (stunWordImage attr value).length) := by
  rw [stunWordImage, stunAddWord]
  by_cases h : value ≠ 0
  · rw [if_pos h, if_pos h]
    exact stunAttribute_emits fun _ _ => Emits.storeBack _
  · rw [if_neg h, if_neg h]
    exact Emits.pure pos

theorem stunAddUseCandidate_emits : Emits s .reply pos (stunUseCandidateImage packet)
    (stunAddUseCandidate packet pos) (pos + (stunUseCandidateImage packet).length) := by
  rw [stunUseCandidateImage, stunAddUseCandidate]
  by_cases h : packet.hasUseCandidate = true
  · rw [if_pos h, if_pos h]
    exact stunAttribute_emits (m := pure ()) fun _ _ => Emits.pure ()
  · rw [if_neg h, if_neg h]
    exact Emits.pure pos

theorem stunAddErrorCodeAttr_emits : Emits s .reply pos (stunErrorCodeImage packet)
    (stunAddErrorCodeAttr packet pos) (pos + (stunErrorCodeImage packet).length) := by
  rw [stunErrorCodeImage, stunAddErrorCodeAttr]
  by_cases h : stunAddErrorCode packet = true
  · rw [if_pos h, if_pos h]
    exact stunAttribute_emits
      (m := do
        ngxSet2Bytes .reply (pos + 4) 0
        ngxSet1Byte .reply (pos + 6) (stunErrorBytes packet.errorCode).1
        ngxSet1Byte .reply (pos + 7) (stunErrorBytes packet.errorCode).2)
      fun _ _ => (Emits.storeBack _).bind ((Emits.storeBack [_]).bind (Emits.storeBack [_]))
  · rw [if_neg h, if_neg h]
    exact Emits.pure pos

theorem stunHeader_emits (htid : packet.transactionId.object ≠ .reply) :
    Emits s .reply 0 (stunHeaderImage packet
      (bytesAt (s.bytes packet.transactionId.object) packet.transactionId.offset 12))
    (stunHeader packet) () := by
  have htype : Emits s .reply 0 ((split16 (stunTypeField packet)).map some)
      (ngxSet2Bytes .reply 0 (stunTypeField packet)) () := Emits.storeBack _
  have hfront : Emits s .reply 0 ((split16 (stunTypeField packet)).map some
        ++ (split16 (UInt16.ofNat packet.size - 20)).map some ++ stunMagicCookie.map some)
      (do ngxSet2Bytes .reply 0 (stunTypeField packet)
          ngxSet2Bytes .reply 2 (UInt16.ofNat packet.size - 20)
          writeBytes .reply 4 stunMagicCookie) () := by
    rw [List.append_assoc]
    exact htype.bind ((Emits.storeBack _).bind (Emits.writeBytes _))
  have hkeep := congrFun hfront.2 packet.transactionId.object
  rw [Function.update_of_ne htid] at hkeep
  refine hfront.bind (f := fun _ =>
    ngxMemcpy .reply 8 packet.transactionId.object packet.transactionId.offset 12) ?_
  rw [← hkeep]
  exact ⟨rfl, rfl⟩

/-- The attributes are laid down one behind the other. -/
theorem stunBody_emits (hmac : List UInt8 → List UInt8 → List UInt8)
    (hlen : packet.usernameLen.toNat ≤ 512) (hxor : stunXorMappedLen packet = none)
    (hmi : stunAddMessageIntegrity packet = false) :
    Emits s .reply pos (stunUsernameImage packet (s.bytes .stunUsername) ++ stunRestImage packet)
      (stunBody hmac packet pos)
      (pos + (stunUsernameImage packet (s.bytes .stunUsername) ++ stunRestImage packet).length,
        { packet with messageIntegrity := ⟨.null, 0⟩ }) := by
  have hmapped : ∀ p, stunAddXorMappedAddress packet p = pure p := by
    intro p
    simp only [stunAddXorMappedAddress, hxor]
  have hlast : ∀ p, stunAddMessageIntegrityAttr hmac packet p =
      pure (p, { packet with messageIntegrity := ⟨.null, 0⟩ }) := by
    intro p
    simp only [stunAddMessageIntegrityAttr, hmi, Bool.false_eq_true, if_false]
  have htail : ∀ (t : Store ProbeObject) (p : Nat),
      Emits t .reply p (stunErrorCodeImage packet)
        (do let q ← stunAddXorMappedAddress packet p
            let q ← stunAddErrorCodeAttr packet q
            stunAddMessageIntegrityAttr hmac packet q)
        (p + (stunErrorCodeImage packet).length, { packet with messageIntegrity := ⟨.null, 0⟩ }) := by
    intro t p
    have herror : Emits t .reply p (stunErrorCodeImage packet) (stunAddErrorCodeAttr packet p)
        (p + (stunErrorCodeImage packet).length) := stunAddErrorCodeAttr_emits
    have h := herror.bind
      (f := fun q => pure (q, { packet with messageIntegrity := (⟨.null, 0⟩ : Ptr) })) (Emits.pure _)
    rw [List.append_nil] at h
    simp only [hmapped, hlast]
    exact h
  have hend : pos + (stunUsernameImage packet (s.bytes .stunUsername) ++ stunRestImage packet).length
      = pos + (stunUsernameImage packet (s.bytes .stunUsername)).length
        + (stunPriorityImage packet).length
        + (stunWordImage .iceControlling packet.iceControlling).length
        + (stunWordImage .iceControlled packet.iceControlled).length
        + (stunUseCandidateImage packet).length + (stunErrorCodeImage packet).length := by
    simp only [stunRestImage, List.length_append]
    omega
  rw [hend]
  refine (stunAddUsername_emits hlen).bind ?_
  refine stunAddPriority_emits.bind ?_
  refine (stunAddWord_emits .iceControlling packet.iceControlling).bind ?_
  refine (stunAddWord_emits .iceControlled packet.iceControlled).bind ?_
  exact stunAddUseCandidate_emits.bind (htail _ _)

/-- What is written: the header and the attributes, from the start of the buffer. -/
def stunImage (packet : StunPacket) (s : Store ProbeObject) : List (Option UInt8) :=
  stunHeaderImage { packet with size := stunSerializedSize packet }
      (bytesAt (s.bytes packet.transactionId.object) packet.transactionId.offset 12)
    ++ (stunUsernameImage packet (s.bytes .stunUsername) ++ stunRestImage packet)

/-- **The encoder.** With room for `packet->size` bytes it lays the image over the buffer. -/
theorem ngxStunSerialize_emits (hmac : List UInt8 → List UInt8 → List UInt8) {len : Nat}
    (hlen : packet.usernameLen.toNat ≤ 512) (hxor : packet.xorMappedAddress = none)
    (hpass : packet.passwordLen = 0) (htid : packet.transactionId.object ≠ .reply)
    (hroom : stunSerializedSize packet ≤ len) :
    Emits s .reply 0 (stunImage packet s) (ngxStunSerialize hmac packet len)
      (.ok, { packet with
        size := stunSerializedSize packet
        transactionId := ⟨.reply, 8⟩
        messageIntegrity := ⟨.null, 0⟩
        hasFingerprint := false }) := by
  obtain ⟨sized, hsized⟩ : ∃ p : StunPacket, p = { packet with size := stunSerializedSize packet } :=
    ⟨_, rfl⟩
  obtain ⟨moved, hmoved⟩ : ∃ p : StunPacket, p = { sized with transactionId := ⟨.reply, 8⟩ } :=
    ⟨_, rfl⟩
  have hxor' : stunXorMappedLen moved = none := by
    simp [stunXorMappedLen, hmoved, hsized, hxor]
  have hmi : stunAddMessageIntegrity moved = false := by
    simp [stunAddMessageIntegrity, hmoved, hsized, hpass]
  have htid' : sized.transactionId.object ≠ .reply := by rwa [hsized]
  have hhead := stunHeader_emits (s := s) htid'
  have hkeep : ((stunHeader sized) s).2.bytes .stunUsername = s.bytes .stunUsername := by
    rw [hhead.2]
    simp
  have hlen' : moved.usernameLen.toNat ≤ 512 := by rwa [hmoved, hsized]
  have hbody : ∃ next, Emits (stunHeader sized s).2 .reply 20
      (stunUsernameImage moved (s.bytes .stunUsername) ++ stunRestImage moved)
      (stunBody hmac moved 20) (next, { moved with messageIntegrity := ⟨.null, 0⟩ }) := by
    rw [← hkeep]
    exact ⟨_, stunBody_emits hmac hlen' hxor' hmi⟩
  obtain ⟨next, hbody⟩ := hbody
  have h := hbody.bind (f := fun r => pure (NgxInt.ok, { r.2 with hasFingerprint := false }))
    (Emits.pure _)
  rw [List.append_nil] at h
  subst hmoved hsized
  rw [ngxStunSerialize, if_neg (Nat.not_lt.mpr hroom)]
  exact hhead.bind h

end Encode

end NginxDtls
