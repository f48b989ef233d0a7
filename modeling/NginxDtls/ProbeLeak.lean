import NginxDtls.ProbeBounds

/-! What a probe reply discloses. Two runs on the same datagram, with different bytes behind it and
different contents in fresh blocks, send the same reply in all but two cases: a DTLS probe with a session
id or a cookie returns the bytes behind the datagram, and a STUN probe with a padded username in front of
another attribute returns the padding of a block that was never written. -/

namespace NginxDtls

open Memory

/-- The datagrams a run has sent. -/
def probeReplies (r : Option ProbeResult) : List (List UInt8) := r.elim [] (·.replies)

/-- Any two runs on the connection's datagram send the same. -/
def ProbeReplySame (hmac : List UInt8 → List UInt8 → List UInt8) (c : ProbeConnection) : Prop :=
  ∀ alloc after blocks after' blocks', probeReplies (probeRun hmac alloc c after blocks).1 =
    probeReplies (probeRun hmac alloc c after' blocks').1

/-- The STUN probe that a datagram is, as `ngx_process_stun_probe` decodes and accepts it. -/
def stunProbe (d : List UInt8) : Option StunPacket :=
  (stunProbeCheck (fun _ => true) d.length (probeStore d (fun _ => 0) fun _ _ => 0)).1.join

/-- A STUN probe whose username needs padding and is followed by another attribute in the reply. -/
def StunPadded (d : List UInt8) : Prop :=
  d.length = 40 ∧ ∃ p, stunProbe d = some p ∧ p.usernameLen.toNat % 4 ≠ 0 ∧
    (p.priority ≠ 0 ∨ p.iceControlling ≠ 0 ∨ p.iceControlled ≠ 0 ∨ p.hasUseCandidate = true)

theorem agree_probeStore (d : List UInt8) (after after' : Nat → UInt8)
    (blocks blocks' : ProbeObject → Nat → UInt8) : Agree (probeSize d.length) probeVisible
      (probeStore d after blocks).bytes (probeStore d after' blocks').bytes := by
  intro o k hvis hk
  cases o with
  | packet =>
      have hk : k < d.length := by simpa [probeSize, dtlsSize] using hk
      rw [probeStore_packet hk, probeStore_packet hk]
  | reply => exact hvis.elim
  | username => exact hvis.elim
  | null => exact hvis.elim
  | _ => rfl

/-! ### The STUN reply -/

section Stun

variable {hmac : List UInt8 → List UInt8 → List UInt8} {alloc : ProbeAlloc → Bool}
  {packet : StunPacket} {s t : Store ProbeObject}

/-- The reply: the image of the packet over what the block held before. -/
theorem stunProbeReply_replies (hparsed : StunParsed 40 packet) (halloc : alloc .reply = true) :
    probeReplies (stunProbeReply hmac alloc packet 40 s).1 =
      [bytesAt (overlay (s.bytes .reply) 0 (stunImage { packet with klass := .successResponse }
          (stunProbeHop packet.transactionId s).2)) 0
        (stunSerializedSize { packet with klass := .successResponse })] := by
  have hanswer : StunParsed 40 { packet with klass := .successResponse } :=
    ⟨hparsed.echo, hparsed.usernameLen, hparsed.transactionId, hparsed.mapped, hparsed.password⟩
  have hsize := (stunSerializedSize_le_echo hanswer rfl).trans hanswer.echo
  have hreply : (stunProbeHop packet.transactionId s).2.bytes .reply = s.bytes .reply := by
    rw [hparsed.transactionId]
    rfl
  have hemits := ngxStunSerialize_emits (s := (stunProbeHop packet.transactionId s).2) hmac
    hanswer.usernameLen hanswer.mapped hanswer.password (by rw [hanswer.transactionId]; decide) hsize
  have hwritten := congrFun hemits.2 .reply
  rw [Function.update_self, hreply] at hwritten
  rw [stunProbeReply, Mem.bind_run, if_neg (by simp [halloc]), Mem.bind_run]
  simp only [hemits.1, ngxReplyProbe, Mem.bind_run, readBytes_run, Mem.pure_run, hwritten]
  rfl

/-- The image of the reply is the same in both runs. -/
theorem stunImage_agree (hparsed : StunParsed 40 packet)
    (hagree : Agree (probeSize 40) probeVisible s.bytes t.bytes) : stunImage packet s =
      stunImage packet t := by
  have hlen := hparsed.usernameLen
  have htid : bytesAt (s.bytes .packet) 8 12 = bytesAt (t.bytes .packet) 8 12 :=
    bytesAt_congr fun k _ hk => hagree .packet k trivial (by simp [probeSize, dtlsSize]; omega)
  have hname : bytesAt (s.bytes .stunUsername) 0 packet.usernameLen.toNat =
      bytesAt (t.bytes .stunUsername) 0 packet.usernameLen.toNat :=
    bytesAt_congr fun k _ hk => hagree .stunUsername k trivial
      (by simp [probeSize, dtlsSize, stunUsernameSize]; omega)
  simp only [stunImage, hparsed.transactionId, htid, stunUsernameImage, hname]

theorem stunRestImage_solid (packet : StunPacket) :
    ∃ l : List UInt8, stunRestImage packet = l.map some := by
  have hword : ∀ attr v, ∃ l, stunWordImage attr v = List.map some l := by
    intro attr v
    rw [stunWordImage]
    split_ifs
    · exact ⟨split16 attr.code ++ split16 8 ++ split64 v, by simp [stunAttributeImage]⟩
    · exact ⟨[], rfl⟩
  have hpriority : ∃ l, stunPriorityImage packet = List.map some l := by
    rw [stunPriorityImage]
    split_ifs
    · exact ⟨split16 StunAttribute.priority.code ++ split16 4 ++ split32 packet.priority, by simp [stunAttributeImage]⟩
    · exact ⟨[], rfl⟩
  have hcandidate : ∃ l, stunUseCandidateImage packet = List.map some l := by
    rw [stunUseCandidateImage]
    split_ifs
    · exact ⟨split16 StunAttribute.useCandidate.code ++ split16 0, by simp [stunAttributeImage]⟩
    · exact ⟨[], rfl⟩
  have herror : ∃ l, stunErrorCodeImage packet = List.map some l := by
    rw [stunErrorCodeImage]
    split_ifs
    · exact ⟨split16 StunAttribute.errorCode.code ++ split16 4 ++ (split16 0
        ++ [(stunErrorBytes packet.errorCode).1, (stunErrorBytes packet.errorCode).2]),
        by simp [stunAttributeImage]⟩
    · exact ⟨[], rfl⟩
  obtain ⟨a, ha⟩ := hpriority
  obtain ⟨b, hb⟩ := hword .iceControlling packet.iceControlling
  obtain ⟨c, hc⟩ := hword .iceControlled packet.iceControlled
  obtain ⟨d, hd⟩ := hcandidate
  obtain ⟨e, he⟩ := herror
  exact ⟨a ++ (b ++ (c ++ (d ++ e))), by simp only [stunRestImage, ha, hb, hc, hd, he, List.map_append]⟩

theorem stunHeaderImage_solid (packet : StunPacket) (tid : List UInt8) :
    ∃ l : List UInt8, stunHeaderImage packet tid = l.map some ∧ l.length = 8 + tid.length := by
  refine ⟨split16 (stunTypeField packet) ++ split16 (UInt16.ofNat packet.size - 20) ++ stunMagicCookie
    ++ tid, ?_, ?_⟩
  · rw [stunHeaderImage, List.map_append, List.map_append, List.map_append]
  · simp [split16, stunMagicCookie]
    omega

/-- The header and the username without its padding are written in full. -/
theorem stunImage_split (hlen : packet.usernameLen.toNat ≤ 512) (s : Store ProbeObject) :
    ∃ l : List UInt8, l.length = 20 + (if 0 < packet.usernameLen.toNat then 4 + packet.usernameLen.toNat else 0) ∧
      stunImage packet s = l.map some
        ++ (List.replicate ((packet.usernameLen.toNat + 3) / 4 * 4 - packet.usernameLen.toNat) none
          ++ stunRestImage packet) := by
  obtain ⟨head, hhead, hheadlen⟩ := stunHeaderImage_solid
    { packet with size := stunSerializedSize packet }
    (bytesAt (s.bytes packet.transactionId.object) packet.transactionId.offset 12)
  rw [bytesAt_length] at hheadlen
  by_cases hpos : 0 < packet.usernameLen.toNat
  · refine ⟨head ++ (split16 StunAttribute.username.code ++ split16 packet.usernameLen
      ++ bytesAt (s.bytes .stunUsername) 0 packet.usernameLen.toNat), ?_, ?_⟩
    · simp [hheadlen, split16, hpos]
      omega
    · rw [stunImage, hhead, stunUsernameImage, if_pos ((padded_ne_zero_iff hlen).mpr hpos),
        padded_toNat hlen]
      simp [stunAttributeImage]
  · refine ⟨head, by rw [hheadlen, if_neg hpos], ?_⟩
    rw [stunImage, hhead, stunUsernameImage,
      if_neg fun h => hpos ((padded_ne_zero_iff hlen).mp h)]
    simp [show packet.usernameLen.toNat = 0 by omega]

theorem bytesAt_overlay_solid (f : Nat → UInt8) (l : List UInt8) (img : List (Option UInt8)) :
    bytesAt (overlay f 0 (l.map some ++ img)) 0 l.length = l :=
  holds_map_some (holds_append.mp (holds_overlay f 0 (l.map some ++ img))).1

/-- Whether the reply of an accepted STUN probe is the same over any two blocks. -/
theorem stunReply_same_iff (hparsed : StunParsed 40 packet) (s : Store ProbeObject) :
    (∀ f g : Nat → UInt8, bytesAt (overlay f 0 (stunImage packet s)) 0 (stunSerializedSize packet) =
        bytesAt (overlay g 0 (stunImage packet s)) 0 (stunSerializedSize packet)) ↔
      (packet.usernameLen.toNat % 4 = 0 ∨ stunRestImage packet = []) := by
  obtain ⟨l, hl, himg⟩ := stunImage_split hparsed.usernameLen s
  obtain ⟨r, hr⟩ := stunRestImage_solid packet
  have hsize := stunSerializedSize_eq hparsed.mapped hparsed.password
  rw [← hl] at hsize
  rw [himg, hsize]
  constructor
  · intro h
    by_contra hne
    obtain ⟨hpad, hrest⟩ := not_or.mp hne
    have hlen : 0 < (stunRestImage packet).length := List.length_pos_iff.mpr hrest
    -- the first padding byte shows what the block held before
    have hhole : (l.map some ++ (List.replicate ((packet.usernameLen.toNat + 3) / 4 * 4
        - packet.usernameLen.toNat) none ++ stunRestImage packet))[l.length]? = some none := by
      rw [List.getElem?_append_right (by simp), List.length_map, Nat.sub_self,
        List.getElem?_append_left (by simp; omega), List.getElem?_replicate, if_pos (by omega)]
    have hbyte := congrArg (fun x => x[l.length]?) (h (fun _ => 0) fun _ => 1)
    simp only [bytesAt_getElem? _ 0 (show l.length < l.length + (stunRestImage packet).length by omega),
      overlay_none hhole, Option.some.injEq] at hbyte
    exact absurd hbyte (by decide)
  · rintro (hmult | hrest)
    · have hpad : (packet.usernameLen.toNat + 3) / 4 * 4 - packet.usernameLen.toNat = 0 := by omega
      intro f g
      rw [hpad, List.replicate_zero, List.nil_append, hr, ← List.map_append, List.length_map,
        ← List.length_append, ← List.append_nil (List.map some (l ++ r)), bytesAt_overlay_solid,
        bytesAt_overlay_solid]
    · intro f g
      rw [hrest, List.length_nil, Nat.add_zero l.length, bytesAt_overlay_solid, bytesAt_overlay_solid]

theorem stunRestImage_eq_nil_iff (hclass : packet.klass = .successResponse) :
    stunRestImage packet = [] ↔ packet.priority = 0 ∧ packet.iceControlling = 0 ∧
      packet.iceControlled = 0 ∧ packet.hasUseCandidate = false := by
  have herror : stunErrorCodeImage packet = [] := by
    simp [stunErrorCodeImage, stunAddErrorCode, hclass]
  have hword : ∀ attr v, stunWordImage attr v = [] ↔ v = 0 := by
    intro attr v
    rw [stunWordImage]
    split_ifs with h <;> simp [stunAttributeImage, split16, h]
    exact not_not.mp h
  have hpriority : stunPriorityImage packet = [] ↔ packet.priority = 0 := by
    rw [stunPriorityImage]
    split_ifs with h <;> simp [stunAttributeImage, split16, h]
    exact not_not.mp h
  have hcandidate : stunUseCandidateImage packet = [] ↔ packet.hasUseCandidate = false := by
    rw [stunUseCandidateImage]
    split_ifs with h <;> simp [stunAttributeImage, split16, h]
  simp only [stunRestImage, List.append_eq_nil_iff, hword, hpriority, hcandidate, herror, and_true]

end Stun

/-! ### The DTLS reply -/

section Dtls

variable {t : Store ProbeObject}

theorem storeBack_of_ge {o : ProbeObject} {i k : Nat} {l : List UInt8} (hk : i + l.length ≤ k)
    (t : Store ProbeObject) : (storeBack o i l t).2.bytes o k = t.bytes o k := by
  rw [(Emits.storeBack l).2, Function.update_self, overlay_of_ge (by simpa using hk)]

theorem ngxServerHelloSerialize_last (sh : DtlsServerHello) (base : Nat) (t : Store ProbeObject) :
    (ngxServerHelloSerialize sh base t).2.bytes .packet (base + 39 + sh.sessionIdLen) =
      sh.extensionLen.toUInt8 := by
  have hlast : ∀ t : Store ProbeObject, (ngxSet2Bytes .packet (base + 35 + sh.sessionIdLen + 3)
      sh.extensionLen t).2.bytes .packet (base + 39 + sh.sessionIdLen) = sh.extensionLen.toUInt8 := by
    intro t
    rw [ngxSet2Bytes, (Emits.storeBack _).2, Function.update_self,
      show base + 39 + sh.sessionIdLen = base + 35 + sh.sessionIdLen + 3 + 1 by omega]
    exact overlay_some rfl
  simp only [ngxServerHelloSerialize, Mem.bind_run, Mem.pure_run, hlast]

/-- The last byte of the reply is the last byte of the client hello. -/
theorem ngxRecordLayerSerialize_last {record : DtlsRecordLayerHeader} {hs : DtlsHandshakeHeader}
    (htype : record.type = dtlsHandshake) (hty : hs.msgType = dtlsServerHello)
    (sh : DtlsServerHello) (t : Store ProbeObject) :
    (ngxRecordLayerSerialize record hs sh t).2.bytes .packet (64 + sh.sessionIdLen) =
      sh.extensionLen.toUInt8 := by
  have hhandshake : ∀ t, (ngxHandshakeSerialize hs sh (11 + 2) t).2.bytes .packet
      (64 + sh.sessionIdLen) = sh.extensionLen.toUInt8 := by
    intro t
    simp only [ngxHandshakeSerialize, Mem.bind_run, if_pos hty, Mem.pure_run]
    rw [ngxSet3Bytes, storeBack_of_ge (by simp [split24]; omega), ngxSet3Bytes,
      storeBack_of_ge (by simp [split24]; omega),
      show 64 + sh.sessionIdLen = 11 + 2 + 9 + 3 + 39 + sh.sessionIdLen by omega]
    exact ngxServerHelloSerialize_last sh _ _
  simp only [ngxRecordLayerSerialize, Mem.bind_run, if_pos htype, Mem.pure_run]
  rw [ngxSet2Bytes, storeBack_of_ge (by simp [split16]; omega)]
  exact hhandshake _

theorem be16_toUInt8 (f : Nat → UInt8) (i : Nat) : (be16 f i).toUInt8 = f (i + 1) := by
  apply UInt8.toNat_inj.mp
  have hlt := (f (i + 1)).toNat_lt
  rw [UInt16.toNat_toUInt8, be16, join16_toNat]
  omega

/-- An accepted DTLS probe is answered with the last byte of its client hello at the end. -/
theorem dtlsProbeAnswer_replies {record : DtlsRecordLayerHeader} (hs : DtlsHandshakeHeader)
    (htype : record.type = dtlsHandshake) (ch : DtlsClientHello) (t : Store ProbeObject) :
    ∃ reply, probeReplies (dtlsProbeAnswer (fun _ => true) record hs ch t).1 = [reply] ∧
      reply[64 + ch.sessionIdLen.toNat]? = some ch.extensionLen.toUInt8 := by
  obtain ⟨record', hrecord⟩ : ∃ r : DtlsRecordLayerHeader, r = { record with minor := 0xfd } := ⟨_, rfl⟩
  obtain ⟨hs', hhs⟩ : ∃ h : DtlsHandshakeHeader, h = { hs with msgType := dtlsServerHello } := ⟨_, rfl⟩
  have htype' : record'.type = dtlsHandshake := by rw [hrecord, htype]
  have hty' : hs'.msgType = dtlsServerHello := by rw [hhs]
  obtain ⟨t₁, hrun⟩ : ∃ t₁, dtlsProbeAnswer (fun _ => true) record hs ch t = (do
      let pos ← ngxRecordLayerSerialize record' hs' (dtlsAnswer ch)
      if pos > 0 then ngxReplyProbe .packet pos .ok else probeDone : ProbeM) t₁ := by
    refine ⟨(dtlsServerHelloFrom ch (probeUsername .chRandom (8 + probePrefixLen + 2) t).2).2, ?_⟩
    rw [dtlsProbeAnswer, if_neg (by simp), if_neg (by simp), Mem.bind_run, Mem.bind_run,
      dtlsServerHelloFrom_value, hrecord, hhs]
  refine ⟨bytesAt ((ngxRecordLayerSerialize record' hs' (dtlsAnswer ch) t₁).2.bytes .packet) 0
    (65 + (dtlsAnswer ch).sessionIdLen), ?_, ?_⟩
  · rw [hrun, Mem.bind_run, ngxRecordLayerSerialize_value htype' hty', if_pos (by omega)]
    rfl
  · rw [bytesAt_getElem? _ _ (by simp only [dtlsAnswer]; omega), Nat.zero_add]
    exact congrArg some (ngxRecordLayerSerialize_last htype' hty' (dtlsAnswer ch) t₁)

/-- The last byte of the client hello, behind the session id and the cookie, is in the reply. -/
theorem processProbe_dtls_replies (hmac : List UInt8 → List UInt8 → List UInt8) {d : List UInt8}
    (hd : d.length = 66) (hhello : DtlsHello (d.getD · 0)) {f : Nat → UInt8} {after : Nat → UInt8}
    {blocks : ProbeObject → Nat → UInt8} (hf : (probeStore d after blocks).bytes .packet = f) :
    ∃ reply, probeReplies
        (processProbe hmac (fun _ => true) d.length (probeStore d after blocks)).1 = [reply] ∧
      reply[64 + (f 59).toNat]? =
        some (f (65 + (f 59).toNat + (f (60 + (f 59).toNat)).toNat)) := by
  have hhello' : DtlsHello f := by
    rw [← hf]
    exact (dtlsHello_probeStore_iff hd).mpr hhello
  obtain ⟨t₁, ht₁, hrun⟩ := ngxProcessDtlsProbe_run
    (⟨⟨rfl, rfl, rfl⟩, hhello'⟩ : dtlsAllocs (fun _ => true) ∧ DtlsHello f) hf
  obtain ⟨-, hch, -⟩ := (dtlsReadClientHello_confined (dtlsChecked f).2.2 rfl rfl).runs t₁ ht₁
  have htype : (dtlsChecked f).1.type = dtlsHandshake := hhello'.1
  obtain ⟨reply, hreply, hlast⟩ := dtlsProbeAnswer_replies (dtlsChecked f).2.1 htype
    (dtlsReadClientHello (dtlsChecked f).2.2 t₁).1 (dtlsReadClientHello (dtlsChecked f).2.2 t₁).2
  refine ⟨reply, ?_, ?_⟩
  · rw [processProbe, if_neg (by omega), if_neg (by omega), if_neg (by omega), if_pos hd, hd, hrun,
      Mem.bind_run]
    exact hreply
  · rw [hch] at hlast
    rw [show 64 + (f 59).toNat = 64 + (dtlsHelloRead f (dtlsChecked f).2.2).sessionIdLen.toNat from rfl,
      hlast, dtlsHelloRead, be16_toUInt8]
    congr 2
    omega

end Dtls

/-! ### Any two runs -/

section Same

variable {hmac : List UInt8 → List UInt8 → List UInt8} {d : List UInt8}

/-- The STUN check takes the same decision in every run whose allocations succeed, and refuses where the
first one fails. -/
theorem stunProbeCheck_same (hd : d.length = 40) (alloc : ProbeAlloc → Bool) (after : Nat → UInt8)
    (blocks : ProbeObject → Nat → UInt8) (h : alloc .stunPacket = true) :
    (stunProbeCheck alloc d.length (probeStore d after blocks)).1 =
      (stunProbeCheck (fun _ => true) d.length (probeStore d (fun _ => 0) fun _ _ => 0)).1 := by
  have hagree := agree_probeStore d after (fun _ => 0) blocks fun _ _ => 0
  have halloc : stunProbeCheck alloc 40 = stunProbeCheck (fun _ => true) 40 := by
    simp only [stunProbeCheck, h]
  rw [hd] at hagree ⊢
  rw [halloc]
  exact (stunProbeCheck_confined.same _ _ trivial hagree).1

theorem frames_stunProbeCheck (alloc : ProbeAlloc → Bool) (len : Nat) :
    Frames .reply (stunProbeCheck alloc len) := by
  unfold stunProbeCheck
  have hstun : Frames .reply (ngxIsStunProbe len) :=
    Frames.ite (Frames.bind (fun _ => rfl) fun _ => Frames.ite (Frames.bind (fun _ => rfl) fun _ =>
      Frames.ite (Frames.pure _) (Frames.pure _)) (Frames.pure _)) (Frames.pure _)
  refine hstun.bind fun _ => Frames.ite (Frames.pure _) (Frames.ite (Frames.pure _) ?_)
  refine (frames_ngxStunParse _ _).bind fun r => ?_
  rcases r with - | ⟨ret, packet⟩
  · exact Frames.pure _
  · refine Frames.ite (Frames.pure _) (Frames.ite (Frames.pure _) (Frames.bind ?_ fun _ =>
      Frames.ite (Frames.pure _) (Frames.pure _)))
    intro s
    rw [(hasProbePrefix_run _ _ s).2]

/-- Without the packet structure nothing is accepted. -/
theorem stunProbeCheck_alloc {alloc : ProbeAlloc → Bool} {len : Nat} {s : Store ProbeObject}
    {p : StunPacket} (h : (stunProbeCheck alloc len s).1 = some (some p)) :
    alloc .stunPacket = true := by
  by_contra hne
  have hfail : alloc .stunPacket = false := by simpa using hne
  rw [stunProbeCheck, Mem.bind_run] at h
  by_cases hstun : (ngxIsStunProbe len s).1 ≠ .ok
  · rw [if_pos hstun] at h
    simp at h
  · rw [if_neg hstun, if_pos (by simp [hfail])] at h
    simp at h

variable (hmac)

/-- An accepted STUN probe is answered with its image over what the reply block held. -/
theorem ngxProcessStunProbe_replies (hd : d.length = 40) {alloc : ProbeAlloc → Bool}
    {after : Nat → UInt8} {blocks : ProbeObject → Nat → UInt8} {p : StunPacket}
    (hr : (stunProbeCheck alloc 40 (probeStore d after blocks)).1 = some (some p))
    (halloc : alloc .reply = true) :
    ∃ s, Agree (probeSize 40) probeVisible s.bytes (stunProbeHop p.transactionId
        (stunProbeCheck alloc 40 (probeStore d (fun _ => 0) fun _ _ => 0)).2).2.bytes ∧
      probeReplies (ngxProcessStunProbe hmac alloc 40 (probeStore d after blocks)).1 =
        [bytesAt (overlay (blocks .reply) 0 (stunImage { p with klass := .successResponse } s)) 0
          (stunSerializedSize { p with klass := .successResponse })] := by
  have hcheck : Confined (probeSize 40) probeVisible _ (stunProbeCheck alloc 40) _ :=
    stunProbeCheck_confined
  have hagree := agree_probeStore d after (fun _ => 0) blocks fun _ _ => 0
  rw [hd] at hagree
  have hparsed := (hcheck.runs (probeStore d after blocks) trivial).2 p hr
  have hframe := frames_stunProbeCheck alloc 40 (probeStore d after blocks)
  refine ⟨_, ((stays_stunProbeHop hparsed).same _ _ trivial
    (hcheck.same _ _ trivial hagree).2).2, ?_⟩
  rw [ngxProcessStunProbe, Mem.bind_run, hr]
  dsimp only
  rw [stunProbeReply_replies hparsed halloc, hframe]
  rfl

/-- A padded username in front of another attribute, in terms of the reply. -/
theorem stunPadded_iff (hd : d.length = 40) {alloc : ProbeAlloc → Bool} {after : Nat → UInt8}
    {blocks : ProbeObject → Nat → UInt8} {p : StunPacket}
    (hr : (stunProbeCheck alloc 40 (probeStore d after blocks)).1 = some (some p)) :
    StunPadded d ↔ ¬(p.usernameLen.toNat % 4 = 0 ∨
      stunRestImage { p with klass := .successResponse } = []) := by
  have hprobe : stunProbe d = some p := by
    have hsame := stunProbeCheck_same hd alloc after blocks (stunProbeCheck_alloc hr)
    rw [hd, hr, ← hd] at hsame
    rw [stunProbe, ← hsame]
    rfl
  rw [stunRestImage_eq_nil_iff rfl]
  constructor
  · rintro ⟨-, q, hq, hpad, hrest⟩
    obtain rfl : q = p := Option.some.inj (hq.symm.trans hprobe)
    rw [not_or]
    refine ⟨hpad, fun ⟨h₁, h₂, h₃, h₄⟩ => ?_⟩
    rcases hrest with h | h | h | h
    · exact h h₁
    · exact h h₂
    · exact h h₃
    · rw [h₄] at h
      cases h
  · intro h
    obtain ⟨hpad, hrest⟩ := not_or.mp h
    refine ⟨hd, p, hprobe, hpad, ?_⟩
    by_contra hnone
    simp only [not_or, not_not, Bool.not_eq_true] at hnone
    exact hrest hnone

theorem ngxProcessStunProbe_same (hd : d.length = 40) (hpadded : ¬StunPadded d)
    (alloc : ProbeAlloc → Bool) (after after' : Nat → UInt8)
    (blocks blocks' : ProbeObject → Nat → UInt8) :
    probeReplies (ngxProcessStunProbe hmac alloc 40 (probeStore d after blocks)).1 =
      probeReplies (ngxProcessStunProbe hmac alloc 40 (probeStore d after' blocks')).1 := by
  have hcheck : Confined (probeSize 40) probeVisible _ (stunProbeCheck alloc 40) _ :=
    stunProbeCheck_confined
  have hagree := agree_probeStore d after after' blocks blocks'
  rw [hd] at hagree
  have hsame := (hcheck.same _ _ trivial hagree).1
  cases hr : (stunProbeCheck alloc 40 (probeStore d after blocks)).1 with
  | none => rw [ngxProcessStunProbe, Mem.bind_run, Mem.bind_run, ← hsame, hr]; rfl
  | some r =>
      cases r with
      | none => rw [ngxProcessStunProbe, Mem.bind_run, Mem.bind_run, ← hsame, hr]; rfl
      | some p =>
          have hparsed := (hcheck.runs (probeStore d after blocks) trivial).2 p hr
          by_cases halloc : alloc .reply = true
          · have hanswer : StunParsed 40 { p with klass := .successResponse } :=
              ⟨hparsed.echo, hparsed.usernameLen, hparsed.transactionId, hparsed.mapped,
                hparsed.password⟩
            obtain ⟨s, hs, hreplies⟩ := ngxProcessStunProbe_replies hmac hd hr halloc
            obtain ⟨t, ht, hreplies'⟩ := ngxProcessStunProbe_replies hmac hd
              (hsame.symm.trans hr) halloc
            have himage := (stunImage_agree hanswer hs).trans (stunImage_agree hanswer ht).symm
            rw [hreplies, hreplies', himage]
            refine congrArg (fun l => [l]) ((stunReply_same_iff hanswer t).mpr ?_ _ _)
            exact not_not.mp fun h => hpadded ((stunPadded_iff hd hr).mpr h)
          · -- the block is `NULL`: neither run gets to a reply
            have hcrash : ∀ s, (stunProbeReply hmac alloc p 40 s).1 = none := by
              intro s
              rw [stunProbeReply, Mem.bind_run, if_pos (by simpa using halloc)]
              rfl
            rw [ngxProcessStunProbe, Mem.bind_run, Mem.bind_run, ← hsame, hr]
            dsimp only
            rw [hcrash, hcrash]

theorem ngxProcessStunProbe_leaks (h : StunPadded d) : ∃ blocks blocks',
    probeReplies (ngxProcessStunProbe hmac (fun _ => true) 40 (probeStore d (fun _ => 0) blocks)).1 ≠
      probeReplies
        (ngxProcessStunProbe hmac (fun _ => true) 40 (probeStore d (fun _ => 0) blocks')).1 := by
  obtain ⟨hd, p, hprobe, -⟩ := id h
  have hcheck : Confined (probeSize 40) probeVisible _ (stunProbeCheck (fun _ => true) 40) _ :=
    stunProbeCheck_confined
  have hr : ∀ blocks, (stunProbeCheck (fun _ => true) 40 (probeStore d (fun _ => 0) blocks)).1 =
      some (some p) := by
    intro blocks
    have hsame := stunProbeCheck_same hd (fun _ => true) (fun _ => 0) blocks rfl
    rw [stunProbe] at hprobe
    rw [hd] at hsame hprobe
    rw [hsame]
    exact Option.join_eq_some_iff.mp hprobe
  have hparsed := (hcheck.runs (probeStore d (fun _ => 0) fun _ _ => 0) trivial).2 p (hr _)
  have hanswer : StunParsed 40 { p with klass := .successResponse } :=
    ⟨hparsed.echo, hparsed.usernameLen, hparsed.transactionId, hparsed.mapped, hparsed.password⟩
  by_contra hsame
  simp only [not_exists, not_not] at hsame
  refine (stunPadded_iff hd (hr fun _ _ => 0)).mp h ((stunReply_same_iff hanswer
    (stunProbeHop p.transactionId (stunProbeCheck (fun _ => true) 40
      (probeStore d (fun _ => 0) fun _ _ => 0)).2).2).mp fun f g => ?_)
  obtain ⟨s, hs, hf⟩ := ngxProcessStunProbe_replies hmac hd (hr fun _ => f) rfl
  obtain ⟨t, ht, hg⟩ := ngxProcessStunProbe_replies hmac hd (hr fun _ => g) rfl
  have hreplies := hsame (fun _ => f) fun _ => g
  rw [hf, hg, stunImage_agree hanswer hs, stunImage_agree hanswer ht] at hreplies
  exact (List.cons.inj hreplies).1

/-- The byte behind the client hello is chosen so that neither length byte is touched. -/
theorem processProbe_dtls_leaks (h : DtlsOverread d) : ∃ after after',
    probeReplies (processProbe hmac (fun _ => true) d.length
        (probeStore d after fun _ _ => 0)).1 ≠
      probeReplies (processProbe hmac (fun _ => true) d.length
        (probeStore d after' fun _ _ => 0)).1 := by
  obtain ⟨f, hf⟩ : ∃ f, (probeStore d (fun _ => 0) fun _ _ => 0).bytes .packet = f := ⟨_, rfl⟩
  obtain ⟨n, hn⟩ : ∃ n, 65 + (f 59).toNat + (f (60 + (f 59).toNat)).toNat = n := ⟨_, rfl⟩
  obtain ⟨g, hg⟩ : ∃ g, (probeStore d (fun k => if k = n - 66 then 1 else 0) fun _ _ => 0).bytes
    .packet = g := ⟨_, rfl⟩
  have hlow : 66 ≤ n := hn ▸ h.last hf
  obtain ⟨hd, hhello, -⟩ := h
  have hother : ∀ k, k ≠ n → g k = f k := by
    intro k hk
    rw [← hf, ← hg]
    simp only [probeStore, hd]
    by_cases hlt : k < 66
    · rw [if_pos hlt, if_pos hlt]
    · rw [if_neg hlt, if_neg hlt, if_neg (by omega)]
  have hfn : f n = 0 := by
    rw [← hf]
    simp only [probeStore, hd, if_neg (Nat.not_lt.mpr hlow)]
  have hgn : g n = 1 := by
    rw [← hg]
    simp only [probeStore, hd, if_neg (Nat.not_lt.mpr hlow), if_true]
  have hg59 : g 59 = f 59 := hother 59 (by omega)
  have hgck : g (60 + (f 59).toNat) = f (60 + (f 59).toNat) := hother _ (by omega)
  obtain ⟨reply, hreply, hlast⟩ := processProbe_dtls_replies hmac hd hhello hf
  obtain ⟨reply', hreply', hlast'⟩ := processProbe_dtls_replies hmac hd hhello hg
  refine ⟨fun _ => 0, fun k => if k = n - 66 then 1 else 0, fun heq => ?_⟩
  rw [hreply, hreply'] at heq
  obtain rfl := (List.cons.inj heq).1
  rw [hg59, hgck, hn, hgn, hlast, hn, hfn] at hlast'
  exact absurd (Option.some.inj hlast') (by decide)

theorem processProbe_same (hdtls : ¬DtlsOverread d) (hstun : ¬StunPadded d)
    (alloc : ProbeAlloc → Bool) (after after' : Nat → UInt8)
    (blocks blocks' : ProbeObject → Nat → UInt8) :
    probeReplies (processProbe hmac alloc d.length (probeStore d after blocks)).1 =
      probeReplies (processProbe hmac alloc d.length (probeStore d after' blocks')).1 := by
  have hagree := agree_probeStore d after after' blocks blocks'
  unfold processProbe
  split_ifs with h24 h36 h40 h66
  · rw [h24] at hagree ⊢
    exact congrArg probeReplies (stays_ngxProcessUdpProbe.same _ _ trivial hagree).1
  · rw [h36] at hagree ⊢
    exact congrArg probeReplies (stays_ngxProcessRtpProbe.same _ _ trivial hagree).1
  · rw [h40]
    exact ngxProcessStunProbe_same hmac h40 hstun alloc after after' blocks blocks'
  · rw [h66] at hagree ⊢
    by_cases hhello : DtlsHello (d.getD · 0)
    · have hzero : d.getD 59 0 = 0 ∧ d.getD 60 0 = 0 := by
        by_contra hne
        exact hdtls ⟨h66, hhello, by tauto⟩
      have hs : ((probeStore d after blocks).bytes .packet 59).toNat = 0 := by
        rw [probeStore_packet (by omega), hzero.1]
        rfl
      have hck : ((probeStore d after blocks).bytes .packet (60 + 0)).toNat = 0 := by
        rw [probeStore_packet (by omega), hzero.2]
        rfl
      exact congrArg probeReplies ((ngxProcessDtlsProbe_confined hs hck).same _ _ rfl hagree).1
    · exact congrArg probeReplies ((ngxProcessDtlsProbe_refused fun hc => hhello
        ((dtlsHello_probeStore_iff h66).mp hc)).same _ _ rfl hagree).1
  · rfl

variable (c : ProbeConnection)

/-- **No disclosure.** What a probe reply contains is determined by the datagram exactly when that is
neither a DTLS probe with a session id or a cookie nor a STUN probe with a padded username in front of
another attribute. -/
theorem ngxProcessProbe_replySame_iff : ProbeReplySame hmac c ↔
    ∀ d, c.datagram = some d → ¬DtlsOverread d ∧ ¬StunPadded d := by
  constructor
  · intro h d hd
    have hsame : ∀ alloc after blocks after' blocks',
        probeReplies (processProbe hmac alloc d.length (probeStore d after blocks)).1 =
          probeReplies (processProbe hmac alloc d.length (probeStore d after' blocks')).1 := by
      intro alloc after blocks after' blocks'
      have := h alloc after blocks after' blocks'
      rwa [probeRun, probeRun, hd] at this
    constructor
    · intro hover
      obtain ⟨after, after', hne⟩ := processProbe_dtls_leaks hmac hover
      exact hne (hsame _ _ _ _ _)
    · intro hpadded
      obtain ⟨blocks, blocks', hne⟩ := ngxProcessStunProbe_leaks hmac hpadded
      have hlen := hpadded.1
      have hrun := hsame (fun _ => true) (fun _ => 0) blocks (fun _ => 0) blocks'
      rw [processProbe, if_neg (by omega), if_neg (by omega), if_pos hlen, hlen] at hrun
      exact hne hrun
  · intro h alloc after blocks after' blocks'
    rw [probeRun, probeRun]
    cases hd : c.datagram with
    | none => rfl
    | some d => exact processProbe_same hmac (h d hd).1 (h d hd).2 _ _ _ _ _

/-- One byte of session id: the reply ends in the byte behind the datagram. -/
theorem dtlsProbeDatagram_discloses : ¬ProbeReplySame (fun _ _ => [])
    { dgram := true, buffer := some (dtlsProbeDatagram 1 0), udp := none } := by
  intro h
  have hover : DtlsOverread (dtlsProbeDatagram 1 0) :=
    ⟨by decide, by unfold DtlsHello; decide, by decide⟩
  obtain ⟨after, after', hne⟩ := processProbe_dtls_leaks (fun _ _ => []) hover
  exact hne (h (fun _ => true) after (fun _ _ => 0) after' fun _ _ => 0)

/-- A STUN probe with a username of five bytes and a priority. -/
def stunProbeDatagram : List UInt8 :=
  [0, 1, 0, 20] ++ stunMagicCookie ++ [0, 0, 0, 0] ++ prefixProbe1 ++ [1, 0]
    ++ [0, 6, 0, 5, 97, 98, 99, 100, 101, 0, 0, 0] ++ [0, 0x24, 0, 4, 0, 0, 0, 1]

/-- Its username is padded in the reply and the priority follows the padding. -/
example : (stunProbe stunProbeDatagram).map (fun p => (p.usernameLen, p.priority)) = some (5, 1) := by
  decide +kernel

end Same

end NginxDtls
