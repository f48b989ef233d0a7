import NginxDtls.StunRoundTrip

/-! The decoder and the encoder stay inside their objects. Every read of the decoder is below the
length it has checked, and every attribute it stores took at least as many bytes of the message as the
encoder will need to write it back, so an answer never needs more room than the request had. -/

namespace NginxDtls

open Memory

/-! ### The decoder -/

/-- The bytes the encoder will place for the attributes of `p`, padding included, in a success
response. -/
def stunEcho (p : StunPacket) : Nat :=
  20 + (if 0 < p.usernameLen.toNat then 4 + (p.usernameLen.toNat + 3) / 4 * 4 else 0)
    + (if p.priority ≠ 0 then 8 else 0) + (if p.iceControlling ≠ 0 then 12 else 0)
    + (if p.iceControlled ≠ 0 then 12 else 0) + (if p.hasUseCandidate then 4 else 0)

/-- What holds at every position of the attribute loop. -/
structure StunLoopInv (len pos : Nat) (st : StunParseState) : Prop where
  aligned : pos % 4 = 0
  echo : stunEcho st.packet ≤ pos
  usernameLen : st.packet.usernameLen.toNat ≤ 512
  fingerprint : st.fingerprintAttrPos ≤ len
  transactionId : st.packet.transactionId = ⟨.packet, 8⟩
  mapped : st.packet.xorMappedAddress = none
  password : st.packet.passwordLen = 0

/-- Storing an attribute whose value has `n` bytes: no other field changes, and the encoder will need
at most its header and the padded value for it. -/
structure StunStores (st st' : StunParseState) (len n : Nat) : Prop where
  echo : stunEcho st'.packet ≤ stunEcho st.packet + 4 + (n + 3) / 4 * 4
  usernameLen : st.packet.usernameLen.toNat ≤ 512 → st'.packet.usernameLen.toNat ≤ 512
  fingerprint : st.fingerprintAttrPos ≤ len → st'.fingerprintAttrPos ≤ len
  transactionId : st'.packet.transactionId = st.packet.transactionId
  mapped : st'.packet.xorMappedAddress = st.packet.xorMappedAddress
  password : st'.packet.passwordLen = st.packet.passwordLen

theorem StunStores.inv {st st' : StunParseState} {len pos n : Nat} (h : StunStores st st' len n)
    (hinv : StunLoopInv len pos st) : StunLoopInv len (pos + 4 + (n + 3) / 4 * 4) st' where
  aligned := by
    have := hinv.aligned
    omega
  echo := by
    have := h.echo
    have := hinv.echo
    omega
  usernameLen := h.usernameLen hinv.usernameLen
  fingerprint := h.fingerprint hinv.fingerprint
  transactionId := h.transactionId.trans hinv.transactionId
  mapped := h.mapped.trans hinv.mapped
  password := h.password.trans hinv.password

section Decoder

variable {size : ProbeObject → Nat} {vis : ProbeObject → Prop} {len : Nat}
  (hvis : vis .packet) (hsize : len ≤ size .packet) (husername : size .stunUsername = 513)

include hvis hsize husername

theorem stunAttributeCase_confined {st : StunParseState} {ty n : UInt16} {pos : Nat}
    (hfits : pos + 4 + n.toNat ≤ len) :
    Confined size vis (fun _ => True) (stunAttributeCase st ty n pos)
      (fun r _ => ∀ st', r = some st' → StunStores st st' len n.toNat) := by
  have hnone : Confined size vis (fun _ => True) (pure none : Mem ProbeObject (Option StunParseState))
      (fun r _ => ∀ st', r = some st' → StunStores st st' len n.toNat) :=
    Confined.pure fun _ _ => by simp
  have hsome : ∀ {P : (ProbeObject → Nat → UInt8) → Prop} {st'}, StunStores st st' len n.toNat →
      Confined size vis P (pure (some st') : Mem ProbeObject (Option StunParseState))
        (fun r _ => ∀ st', r = some st' → StunStores st st' len n.toNat) := by
    intro P st' h
    refine Confined.pure fun _ _ st'' heq => ?_
    rw [← Option.some.inj heq]
    exact h
  unfold stunAttributeCase
  refine Confined.ite (fun _ => Confined.ite (fun _ => hnone) fun hlt => ?_) fun _ => ?_
  · -- USERNAME
    rw [stunUsernameSize] at hlt
    refine (stays_ngxMemcpy hvis (by omega) (by omega)).andThen fun _ => ?_
    refine (stays_writeByte (by omega)).andThen fun _ => hsome ?_
    refine ⟨?_, fun _ => by dsimp only; omega, id, rfl, rfl, rfl⟩
    simp only [stunEcho]
    split_ifs <;> omega
  refine Confined.ite (fun _ => Confined.ite (fun _ => hnone) fun heq => ?_) fun _ => ?_
  · -- PRIORITY
    have hn : n.toNat = 4 := congrArg UInt16.toNat (not_not.mp heq)
    refine (stays_ngxGet4Bytes hvis (by omega)).andThen fun v => hsome ⟨?_, id, id, rfl, rfl, rfl⟩
    simp only [stunEcho]
    split_ifs <;> omega
  refine Confined.ite (fun _ => Confined.ite (fun _ => hnone) fun heq => ?_) fun _ => ?_
  · -- ICE-CONTROLLING
    have hn : n.toNat = 8 := congrArg UInt16.toNat (not_not.mp heq)
    refine (stays_ngxGet8Bytes hvis (by omega)).andThen fun v => hsome ⟨?_, id, id, rfl, rfl, rfl⟩
    simp only [stunEcho]
    split_ifs <;> omega
  refine Confined.ite (fun _ => Confined.ite (fun _ => hnone) fun heq => ?_) fun _ => ?_
  · -- ICE-CONTROLLED
    have hn : n.toNat = 8 := congrArg UInt16.toNat (not_not.mp heq)
    refine (stays_ngxGet8Bytes hvis (by omega)).andThen fun v => hsome ⟨?_, id, id, rfl, rfl, rfl⟩
    simp only [stunEcho]
    split_ifs <;> omega
  refine Confined.ite (fun _ => Confined.ite (fun _ => hnone) fun _ => hsome ?_) fun _ => ?_
  · -- USE-CANDIDATE
    refine ⟨?_, id, id, rfl, rfl, rfl⟩
    simp only [stunEcho]
    split_ifs <;> omega
  have hkeeps : ∀ st' : StunParseState, stunEcho st'.packet = stunEcho st.packet →
      st'.packet.usernameLen = st.packet.usernameLen → st'.fingerprintAttrPos = st.fingerprintAttrPos →
      st'.packet.transactionId = st.packet.transactionId →
      st'.packet.xorMappedAddress = st.packet.xorMappedAddress →
      st'.packet.passwordLen = st.packet.passwordLen → StunStores st st' len n.toNat := by
    intro st' hecho hname hfp htid hxor hpass
    exact ⟨by omega, fun h => hname ▸ h, fun h => hfp ▸ h, htid, hxor, hpass⟩
  refine Confined.ite (fun _ => Confined.ite (fun _ => hnone) fun heq => ?_) fun _ => ?_
  · -- NOMINATION
    have hn : n.toNat = 4 := congrArg UInt16.toNat (not_not.mp heq)
    exact (stays_ngxGet4Bytes hvis (by omega)).andThen fun v =>
      hsome (hkeeps _ rfl rfl rfl rfl rfl rfl)
  refine Confined.ite (fun _ => Confined.ite (fun _ => hnone) fun _ => ?_) fun _ => ?_
  · -- MESSAGE-INTEGRITY
    exact hsome (hkeeps _ rfl rfl rfl rfl rfl rfl)
  refine Confined.ite (fun _ => Confined.ite (fun _ => hnone) fun heq => ?_) fun _ => ?_
  · -- FINGERPRINT
    have hn : n.toNat = 4 := congrArg UInt16.toNat (not_not.mp heq)
    exact (stays_ngxGet4Bytes hvis (by omega)).andThen fun v =>
      hsome ⟨by dsimp only [stunEcho]; omega, id, fun _ => by dsimp only; omega, rfl, rfl, rfl⟩
  refine Confined.ite (fun _ => Confined.ite (fun _ => hnone) fun hlt => ?_) fun _ => ?_
  · -- ERROR-CODE
    have hn : 4 ≤ n.toNat := by
      rw [UInt16.lt_iff_toNat_lt] at hlt
      exact Nat.not_lt.mp hlt
    refine Stays.andThen (m := ngxGet1Byte _ _) (stays_readByte hvis (by omega)) fun _ => ?_
    exact Stays.andThen (m := ngxGet1Byte _ _) (stays_readByte hvis (by omega)) fun _ =>
      hsome (hkeeps _ rfl rfl rfl rfl rfl rfl)
  · -- unknown attributes
    exact hsome (hkeeps _ rfl rfl rfl rfl rfl rfl)

theorem stunAttributes_confined (hlen : len ≤ 65532) (fuel : Nat) {pos : Nat} {st : StunParseState}
    (hinv : StunLoopInv len pos st) :
    Confined size vis (fun _ => True) (stunAttributes len fuel pos st)
      (fun r _ => ∀ pos' st', r = some (.finished pos' st') → StunLoopInv len pos' st') := by
  induction fuel generalizing pos st with
  | zero => exact Confined.pure fun _ _ => by simp
  | succ fuel ih =>
      have herror : ∀ {P : (ProbeObject → Nat → UInt8) → Prop}, Confined size vis P
          (pure (some (.error st)) : Mem ProbeObject (Option StunLoopEnd))
          (fun r _ => ∀ pos' st', r = some (.finished pos' st') → StunLoopInv len pos' st') :=
        Confined.pure fun _ _ => by simp
      unfold stunAttributes
      refine Confined.ite (fun hroom => ?_) fun _ => ?_
      · refine (stays_ngxGet2Bytes hvis (by omega)).andThen fun ty => ?_
        refine (stays_ngxGet2Bytes hvis (by omega)).andThen fun n => ?_
        refine Confined.ite (fun _ => herror) fun hfits => ?_
        refine Confined.ite (fun _ => herror) fun _ => Confined.ite (fun _ => herror) fun _ => ?_
        refine Confined.bind
          (stunAttributeCase_confined hvis hsize husername (Nat.not_lt.mp hfits)) fun r => ?_
        apply Confined.assume
        rintro ⟨-, hstores⟩
        cases r with
        | none => exact herror
        | some st' =>
            have hnext : (ngxPadTo4BytesFrom2Bytes (UInt16.ofNat (pos + 4 + n.toNat))).toNat =
                pos + 4 + (n.toNat + 3) / 4 * 4 := by
              have haligned := hinv.aligned
              rw [pad_toNat, UInt16.toNat_ofNat']
              omega
            refine (ih ?_).conseq (fun _ _ => trivial) fun _ _ h => h
            rw [hnext]
            exact (hstores st' rfl).inv hinv
      · refine Confined.pure fun _ _ pos' st' heq => ?_
        obtain ⟨rfl, rfl⟩ : pos = pos' ∧ st = st' := by simpa using heq
        exact hinv

/-- What an accepted message leaves in the packet. -/
structure StunParsed (len : Nat) (p : StunPacket) : Prop where
  echo : stunEcho p ≤ len
  usernameLen : p.usernameLen.toNat ≤ 512
  transactionId : p.transactionId = ⟨.packet, 8⟩
  mapped : p.xorMappedAddress = none
  password : p.passwordLen = 0

theorem ngxStunParse_confined (hge : 4 ≤ len) (hlen : len ≤ 65532) :
    Confined size vis (fun _ => True) (ngxStunParse {} len)
      (fun r _ => ∀ p, r = some (.ok, p) → StunParsed len p) := by
  have herror : ∀ {P : (ProbeObject → Nat → UInt8) → Prop} {p : StunPacket}, Confined size vis P
      (pure (some (.error, p)) : Mem ProbeObject (Option (NgxInt × StunPacket)))
      (fun r _ => ∀ p, r = some (.ok, p) → StunParsed len p) :=
    Confined.pure fun _ _ => by simp
  unfold ngxStunParse
  refine (stays_ngxGet2Bytes hvis (by omega)).andThen fun ty => ?_
  refine (stays_ngxGet2Bytes hvis (by omega)).andThen fun n => ?_
  refine Confined.ite (fun _ => herror) fun _ => ?_
  refine (stays_readByte hvis (by omega)).andThen fun _ => ?_
  refine (stays_readByte hvis (by omega)).andThen fun _ => ?_
  refine Confined.bind (stunAttributes_confined hvis hsize husername hlen _
    ⟨rfl, by simp [stunEcho], by simp, by simp, rfl, rfl, rfl⟩) fun r => ?_
  apply Confined.assume
  rintro ⟨-, hend⟩
  cases r with
  | none => exact Confined.pure fun _ _ => by simp
  | some e =>
      cases e with
      | error st => exact herror
      | finished pos st =>
          have hinv := hend pos st rfl
          refine Confined.bind (Q := fun r _ => r.1 = .ok → StunParsed len r.2) ?_ fun r =>
            Confined.pure fun _ h p heq => ?_
          · have hok : pos = len → StunParsed len st.packet := by
              rintro rfl
              exact ⟨hinv.echo, hinv.usernameLen, hinv.transactionId, hinv.mapped, hinv.password⟩
            unfold stunParseTail
            refine Confined.ite (fun _ => Confined.pure fun _ _ => by simp) fun heq => ?_
            have hparsed := hok (not_not.mp heq)
            refine Confined.ite (fun _ => ?_) fun _ => Confined.pure fun _ _ _ => hparsed
            have hcrc : Stays size vis (ngxGetCrc32 ProbeObject.packet st.fingerprintAttrPos) :=
              (stays_readBytes hvis (by have := hinv.fingerprint; omega)).bind fun _ =>
                Confined.pure fun _ _ => trivial
            exact hcrc.andThen fun _ => Confined.ite (fun _ => Confined.pure fun _ _ => by simp)
              fun _ => Confined.pure fun _ _ _ => hparsed
          · obtain rfl : r = (.ok, p) := Option.some.inj heq
            exact h rfl

end Decoder

theorem frames_stunAttributeCase (st : StunParseState) (ty n : UInt16) (pos : Nat) :
    Frames .reply (stunAttributeCase st ty n pos) := by
  have hget : ∀ {α : Type} {m : Mem ProbeObject α} {f : α → Option StunParseState},
      Frames .reply m → Frames .reply (m >>= fun v => pure (f v)) :=
    fun hm => hm.bind fun _ => Frames.pure _
  unfold stunAttributeCase
  refine Frames.ite (Frames.ite (Frames.pure _) ?_) ?_
  · exact (Frames.ngxMemcpy (by decide) _ _ _).bind fun _ =>
      (Frames.writeByte (by decide) _ _).bind fun _ => Frames.pure _
  refine Frames.ite (Frames.ite (Frames.pure _) (hget fun _ => rfl)) ?_
  refine Frames.ite (Frames.ite (Frames.pure _) (hget fun _ => rfl)) ?_
  refine Frames.ite (Frames.ite (Frames.pure _) (hget fun _ => rfl)) ?_
  refine Frames.ite (Frames.ite (Frames.pure _) (Frames.pure _)) ?_
  refine Frames.ite (Frames.ite (Frames.pure _) (hget fun _ => rfl)) ?_
  refine Frames.ite (Frames.ite (Frames.pure _) (Frames.pure _)) ?_
  refine Frames.ite (Frames.ite (Frames.pure _) (hget fun _ => rfl)) ?_
  exact Frames.ite (Frames.ite (Frames.pure _) fun _ => rfl) (Frames.pure _)

theorem frames_stunAttributes (len fuel pos : Nat) (st : StunParseState) :
    Frames .reply (stunAttributes len fuel pos st) := by
  induction fuel generalizing pos st with
  | zero => exact Frames.pure _
  | succ fuel ih =>
      unfold stunAttributes
      refine Frames.ite (Frames.bind (fun _ => rfl) fun ty => Frames.bind (fun _ => rfl) fun n => ?_)
        (Frames.pure _)
      refine Frames.ite (Frames.pure _) (Frames.ite (Frames.pure _) (Frames.ite (Frames.pure _) ?_))
      refine (frames_stunAttributeCase _ _ _ _).bind fun r => ?_
      cases r with
      | none => exact Frames.pure _
      | some st' => exact ih _ _

/-- The decoder writes the username and nothing else; the block of the reply is as it was. -/
theorem frames_ngxStunParse (p : StunPacket) (len : Nat) : Frames .reply (ngxStunParse p len) := by
  unfold ngxStunParse
  refine Frames.bind (fun _ => rfl) fun _ => Frames.bind (fun _ => rfl) fun _ => ?_
  refine Frames.ite (Frames.pure _) (Frames.bind (fun _ => rfl) fun _ =>
    Frames.bind (fun _ => rfl) fun _ => (frames_stunAttributes _ _ _ _).bind fun r => ?_)
  rcases r with - | - | -
  · exact Frames.pure _
  · exact Frames.pure _
  · refine Frames.bind ?_ fun _ => Frames.pure _
    unfold stunParseTail
    exact Frames.ite (Frames.pure _) (Frames.ite (Frames.bind (fun _ => rfl) fun _ =>
      Frames.ite (Frames.pure _) (Frames.pure _)) (Frames.pure _))

/-! ### The encoder -/

section Encoder

variable {size : ProbeObject → Nat} {vis : ProbeObject → Prop} {packet : StunPacket} {pos len : Nat}

theorem stays_stunAttributeHeader (attr : StunAttribute) (length : UInt16)
    (hroom : pos + 4 ≤ size .reply) : Stays size vis (stunAttributeHeader pos attr length) :=
  (stays_storeBack (by simp [split16]; omega)).bind fun _ =>
    stays_storeBack (by simp [split16]; omega)

theorem stays_stunAddUsername (hvis : vis .stunUsername) (husername : size .stunUsername = 513)
    (hlen : packet.usernameLen.toNat ≤ 512)
    (hroom : pos + (stunUsernameImage packet fun _ => 0).length ≤ size .reply) :
    Stays size vis (stunAddUsername packet pos) := by
  rw [stunUsernameImage_length hlen] at hroom
  refine Confined.ite (fun h => ?_) fun _ => Confined.pure fun _ _ => trivial
  have hpos := (padded_ne_zero_iff hlen).mp h
  rw [if_pos hpos] at hroom
  exact (stays_stunAttributeHeader _ _ (by omega)).bind fun _ =>
    (stays_ngxMemcpy hvis (by omega) (by omega)).bind fun _ => Confined.pure fun _ _ => trivial

theorem stays_stunAddPriority (hroom : pos + (stunPriorityImage packet).length ≤ size .reply) :
    Stays size vis (stunAddPriority packet pos) := by
  refine Confined.ite (fun h => ?_) fun _ => Confined.pure fun _ _ => trivial
  rw [stunPriorityImage, if_pos h] at hroom
  simp only [stunAttributeImage, split16, split32, List.length_append, List.length_map,
    List.length_cons, List.length_nil] at hroom
  exact (stays_stunAttributeHeader _ _ (by omega)).bind fun _ =>
    Stays.bind (m := ngxSet4Bytes _ _ _) (stays_storeBack (by simp [split32]; omega)) fun _ =>
      Confined.pure fun _ _ => trivial

theorem stays_stunAddWord {attr : StunAttribute} {value : UInt64}
    (hroom : pos + (stunWordImage attr value).length ≤ size .reply) :
    Stays size vis (stunAddWord attr value pos) := by
  refine Confined.ite (fun h => ?_) fun _ => Confined.pure fun _ _ => trivial
  rw [stunWordImage, if_pos h] at hroom
  simp only [stunAttributeImage, split16, split64, List.length_append, List.length_map,
    List.length_cons, List.length_nil] at hroom
  exact (stays_stunAttributeHeader _ _ (by omega)).bind fun _ =>
    Stays.bind (m := ngxSet8Bytes _ _ _) (stays_storeBack (by simp [split64]; omega)) fun _ =>
      Confined.pure fun _ _ => trivial

theorem stays_stunAddUseCandidate
    (hroom : pos + (stunUseCandidateImage packet).length ≤ size .reply) :
    Stays size vis (stunAddUseCandidate packet pos) := by
  refine Confined.ite (fun h => ?_) fun _ => Confined.pure fun _ _ => trivial
  rw [stunUseCandidateImage, if_pos h] at hroom
  simp only [stunAttributeImage, split16, List.length_append, List.length_map,
    List.length_cons, List.length_nil] at hroom
  exact (stays_stunAttributeHeader _ _ (by omega)).bind fun _ => Confined.pure fun _ _ => trivial

theorem stunEcho_eq (hlen : packet.usernameLen.toNat ≤ 512) : stunEcho packet =
    20 + (stunUsernameImage packet fun _ => 0).length + (stunPriorityImage packet).length
      + (stunWordImage .iceControlling packet.iceControlling).length
      + (stunWordImage .iceControlled packet.iceControlled).length
      + (stunUseCandidateImage packet).length := by
  rw [stunUsernameImage_length hlen]
  simp only [stunEcho, stunPriorityImage, stunWordImage, stunUseCandidateImage,
    apply_ite List.length]
  simp [stunAttributeImage, split16, split32, split64]

/-- An answer fits where the request was: its attributes without padding take no more than with it. -/
theorem stunSerializedSize_le_echo (hparsed : StunParsed len packet)
    (hclass : packet.klass = .successResponse) : stunSerializedSize packet ≤ stunEcho packet := by
  have hxor : stunXorMappedLen packet = none := by simp [stunXorMappedLen, hparsed.mapped]
  have hmi : stunAddMessageIntegrity packet = false := by
    simp [stunAddMessageIntegrity, hparsed.password]
  have herror : stunAddErrorCode packet = false := by simp [stunAddErrorCode, hclass]
  have hpos : (0 < packet.usernameLen) ↔ 0 < packet.usernameLen.toNat := UInt16.lt_iff_toNat_lt
  simp only [stunSerializedSize, hxor, hmi, herror, stunAddFingerprint, hpos, stunEcho,
    Bool.false_eq_true, if_false]
  split_ifs <;> omega

theorem stays_stunBody (hmac : List UInt8 → List UInt8 → List UInt8) (hvis : vis .stunUsername)
    (husername : size .stunUsername = 513) (hlen : packet.usernameLen.toNat ≤ 512)
    (hroom : stunEcho packet ≤ size .reply) (hxor : packet.xorMappedAddress = none)
    (hpass : packet.passwordLen = 0) (hclass : packet.klass = .successResponse) :
    Stays size vis (stunBody hmac packet 20) := by
  rw [stunEcho_eq hlen] at hroom
  have hmapped : ∀ p, stunAddXorMappedAddress packet p = pure p := by
    intro p
    simp [stunAddXorMappedAddress, stunXorMappedLen, hxor]
  refine Stays.next (stays_stunAddUsername hvis husername hlen (by omega)) (fun s => by
    rw [stunAddUsername_emits hlen |>.1, stunUsernameImage_length hlen,
      ← stunUsernameImage_length hlen fun _ => 0]) ?_
  refine Stays.next (stays_stunAddPriority (by omega)) (fun _ => stunAddPriority_emits.1) ?_
  refine Stays.next (stays_stunAddWord (by omega)) (fun _ => (stunAddWord_emits _ _).1) ?_
  refine Stays.next (stays_stunAddWord (by omega)) (fun _ => (stunAddWord_emits _ _).1) ?_
  refine Stays.next (stays_stunAddUseCandidate (by omega)) (fun _ => stunAddUseCandidate_emits.1) ?_
  rw [hmapped]
  refine Stays.bind (Confined.pure fun _ _ => trivial) fun _ => Stays.bind ?_ fun _ => ?_
  · -- no error code in a success response
    refine Confined.ite (fun h => ?_) fun _ => Confined.pure fun _ _ => trivial
    simp [stunAddErrorCode, hclass] at h
  · -- no password, no message integrity
    refine Confined.ite (fun h => ?_) fun _ => Confined.pure fun _ _ => trivial
    simp [stunAddMessageIntegrity, hpass] at h

/-- The encoder of an answer stays in its block when that has room for the attributes with their
padding. -/
theorem stays_ngxStunSerialize (hmac : List UInt8 → List UInt8 → List UInt8)
    (hvis : vis .packet) (hpacket : 20 ≤ size .packet) (hvis' : vis .stunUsername)
    (husername : size .stunUsername = 513) (hparsed : StunParsed (size .reply) packet)
    (hclass : packet.klass = .successResponse) :
    Stays size vis (ngxStunSerialize hmac packet len) := by
  have hlen := hparsed.usernameLen
  have hroom := hparsed.echo
  rw [stunEcho_eq hlen] at hroom
  refine Confined.ite (fun _ => Confined.pure fun _ _ => trivial) fun _ => ?_
  refine Stays.bind ?_ fun _ => ?_
  · -- the header
    refine Stays.bind (m := ngxSet2Bytes _ _ _) (stays_storeBack (by simp [split16]; omega)) fun _ => ?_
    refine Stays.bind (m := ngxSet2Bytes _ _ _) (stays_storeBack (by simp [split16]; omega)) fun _ => ?_
    refine Stays.bind (Confined.writeBytes (by simp [stunMagicCookie]; omega) fun _ _ => trivial)
      fun _ => ?_
    rw [hparsed.transactionId]
    exact stays_ngxMemcpy hvis (by dsimp only; omega) (by omega)
  · -- the attributes
    refine Stays.bind ?_ fun _ => Confined.pure fun _ _ => trivial
    exact stays_stunBody hmac hvis' husername hlen hparsed.echo hparsed.mapped hparsed.password hclass

end Encoder

end NginxDtls
