import NginxDtls.Probe
import NginxDtls.StunBounds

/-! Probe handling stays in bounds, with one exception. The UDP and RTP probes work at fixed offsets
and the STUN decoder checks every length it uses. The DTLS probe uses the session id and cookie lengths
of the client hello as they come: unless both are zero, the fields behind them lie outside the 66 bytes
of the datagram. -/

namespace NginxDtls

open Memory

/-- The sizes of the objects for a datagram of `n` bytes, with room for a session id of `s` bytes and a
cookie of `ck` bytes more than the arrays have. -/
def dtlsSize (n s ck : Nat) : ProbeObject → Nat
  | .null => 0
  | .packet => n + s + ck
  | .stunUsername => stunUsernameSize
  | .reply => n
  | .username => probeUsernameLen + 1
  | .sequenceNumber => dtlsRecordLayerSeqNumSize
  | .chRandom => ssl3RandomSize
  | .chSessionId => 32 + s
  | .chDtlsCookie => 256 + ck
  | .shRandom => ssl3RandomSize
  | .shSessionId => 32 + s

/-- The sizes of the objects: the datagram, the reply block of the same size, and the arrays as they
are declared. -/
def probeSize (n : Nat) : ProbeObject → Nat := dtlsSize n 0 0

/-- The objects whose contents are determined by the datagram: not the blocks of `ngx_palloc`. -/
def probeVisible : ProbeObject → Prop
  | .reply | .username | .null => False
  | _ => True

section Confined

variable {n s ck : Nat} {alloc : ProbeAlloc → Bool}

theorem stays_probeDone : Stays (dtlsSize n s ck) probeVisible probeDone :=
  Confined.pure fun _ _ => trivial

theorem stays_hasProbePrefix {o : ProbeObject} {i : Nat} (hvis : probeVisible o)
    (hi : i + 6 ≤ dtlsSize n s ck o) : Stays (dtlsSize n s ck) probeVisible (hasProbePrefix o i) :=
  (stays_readBytes hvis hi).bind fun _ =>
    Confined.ite (fun _ => Confined.pure fun _ _ => trivial) fun _ =>
      (stays_readBytes hvis hi).bind fun _ => Confined.pure fun _ _ => trivial

theorem stays_probeUsername {o : ProbeObject} {i : Nat} (hvis : probeVisible o)
    (hi : i + 16 ≤ dtlsSize n s ck o) : Stays (dtlsSize n s ck) probeVisible (probeUsername o i) :=
  (stays_ngxMemcpy hvis hi (by simp [dtlsSize, probeUsernameLen])).bind fun _ =>
    stays_writeByte (by simp [dtlsSize])

theorem stays_ngxReplyProbe {len : Nat} {ret : NgxInt} (hlen : len ≤ n + s + ck) :
    Stays (dtlsSize n s ck) probeVisible (ngxReplyProbe .packet len ret) :=
  (stays_readBytes (o := ProbeObject.packet) trivial (by simpa [dtlsSize] using hlen)).bind fun _ =>
    Confined.pure fun _ _ => trivial

theorem stays_ngxProcessUdpProbe :
    Stays (probeSize 24) probeVisible (ngxProcessUdpProbe alloc 24) := by
  refine Stays.bind (stays_hasProbePrefix trivial (by decide)) fun b => ?_
  refine Confined.ite (fun _ => stays_probeDone) fun _ => Confined.ite (fun _ => stays_probeDone)
    fun _ => ?_
  refine Stays.bind (stays_readByte trivial (by decide)) fun ttl => ?_
  have httl : Stays (probeSize 24) probeVisible (probeTtl ttl) :=
    Confined.ite
      (fun _ => Stays.bind (stays_writeByte (by decide)) fun _ => Confined.pure fun _ _ => trivial)
      fun _ => Stays.bind (stays_writeByte (by decide)) fun _ => Confined.pure fun _ _ => trivial
  refine Stays.bind httl fun ret => ?_
  refine Stays.bind (stays_readByte trivial (by decide)) fun nodeNum => ?_
  refine Stays.bind (stays_writeByte (by decide)) fun _ => ?_
  exact Stays.bind (stays_probeUsername trivial (by decide)) fun _ => stays_ngxReplyProbe (by decide)

theorem stays_ngxProcessRtpProbe :
    Stays (probeSize 36) probeVisible (ngxProcessRtpProbe alloc 36) := by
  have hrtp : Stays (probeSize 36) probeVisible (ngxIsRtpProbe 36) :=
    Confined.ite (fun _ => Stays.bind (stays_readByte trivial (by decide)) fun _ =>
      Confined.ite (fun _ => Confined.pure fun _ _ => trivial) fun _ =>
        Confined.pure fun _ _ => trivial) fun _ => Confined.pure fun _ _ => trivial
  refine Stays.bind hrtp fun _ => Confined.ite (fun _ => stays_probeDone) fun _ => ?_
  refine Stays.bind (stays_hasProbePrefix trivial (by decide)) fun b => ?_
  refine Confined.ite (fun _ => stays_probeDone) fun _ => ?_
  refine Stays.bind (stays_writeByte (by decide)) fun _ => ?_
  refine Stays.bind (stays_readByte trivial (by decide)) fun nodeNum => ?_
  refine Stays.bind (stays_writeByte (by decide)) fun _ => ?_
  refine Stays.bind (stays_readBytes trivial (by decide)) fun reply => ?_
  refine Confined.ite (fun _ => Confined.pure fun _ _ => trivial) fun _ => ?_
  exact Stays.bind (stays_probeUsername trivial (by decide)) fun _ => Confined.pure fun _ _ => trivial

/-! ### STUN -/

theorem stunProbeCheck_confined : Confined (probeSize 40) probeVisible (fun _ => True)
    (stunProbeCheck alloc 40) (fun r _ => ∀ p, r = some (some p) → StunParsed 40 p) := by
  have hnone : ∀ {P : (ProbeObject → Nat → UInt8) → Prop}, Confined (probeSize 40) probeVisible P
      (pure (some none) : Mem ProbeObject (Option (Option StunPacket)))
      (fun r _ => ∀ p, r = some (some p) → StunParsed 40 p) :=
    Confined.pure fun _ _ => by simp
  have hstun : Stays (probeSize 40) probeVisible (ngxIsStunProbe 40) :=
    Confined.ite (fun _ => Stays.bind (stays_readByte trivial (by decide)) fun _ =>
      Confined.ite (fun _ => Stays.bind (stays_readBytes trivial (by decide)) fun _ =>
        Confined.ite (fun _ => Confined.pure fun _ _ => trivial) fun _ =>
          Confined.pure fun _ _ => trivial) fun _ => Confined.pure fun _ _ => trivial)
      fun _ => Confined.pure fun _ _ => trivial
  refine hstun.andThen fun _ => Confined.ite (fun _ => hnone) fun _ =>
    Confined.ite (fun _ => hnone) fun _ => ?_
  refine Confined.bind (ngxStunParse_confined trivial le_rfl rfl (by decide) (by decide)) fun r =>
    Confined.assume fun ⟨_, hparsed⟩ => ?_
  cases r with
  | none => exact Confined.pure fun _ _ => by simp
  | some r =>
      obtain ⟨ret, packet⟩ := r
      refine Confined.ite (fun _ => hnone) fun hret => Confined.ite (fun _ => hnone) fun _ => ?_
      obtain rfl := not_not.mp hret
      have hparsed := hparsed packet rfl
      have hpre : Stays (probeSize 40) probeVisible
          (hasProbePrefix packet.transactionId.object (packet.transactionId.offset + 4)) := by
        rw [hparsed.transactionId]
        exact stays_hasProbePrefix trivial (by decide)
      refine hpre.andThen fun _ =>
        Confined.ite (fun _ => hnone) fun _ => Confined.pure fun _ _ p heq => ?_
      obtain rfl : packet = p := by simpa using heq
      exact hparsed

/-- The hop fields are in the transaction id of the datagram. -/
theorem stays_stunProbeHop {packet : StunPacket} (hparsed : StunParsed 40 packet) :
    Stays (probeSize 40) probeVisible (stunProbeHop packet.transactionId) := by
  rw [hparsed.transactionId]
  exact (stays_writeByte (by decide)).bind fun _ => (stays_readByte trivial (by decide)).bind fun _ =>
    stays_writeByte (by decide)

theorem stunProbeReply_runs (hmac : List UInt8 → List UInt8 → List UInt8) {packet : StunPacket}
    (hparsed : StunParsed 40 packet) : Runs (·.Within (probeSize 40)) (fun _ => True)
      (stunProbeReply hmac alloc packet 40) fun _ _ => True := by
  have hanswer : StunParsed 40 { packet with klass := .successResponse } :=
    ⟨hparsed.echo, hparsed.usernameLen, hparsed.transactionId, hparsed.mapped, hparsed.password⟩
  have hsize := (stunSerializedSize_le_echo hanswer rfl).trans hanswer.echo
  refine (stays_stunProbeHop hparsed).andRuns fun _ => ?_
  refine Runs.ite (fun _ => Runs.pure fun _ _ => trivial) fun _ => ?_
  have hserialize : Stays (probeSize 40) probeVisible
      (ngxStunSerialize hmac { packet with klass := .successResponse } 40) :=
    stays_ngxStunSerialize hmac trivial (by decide) trivial rfl hanswer rfl
  refine Runs.bind (Q := fun r _ => r.2.size ≤ 40) (hserialize.confined fun s _ => ?_).runs
    fun r => ?_
  · rw [(ngxStunSerialize_emits hmac hanswer.usernameLen hanswer.mapped hanswer.password
      (by rw [hanswer.transactionId]; decide) hsize).1]
    exact hsize
  · refine Runs.assume fun ⟨_, hle⟩ => Runs.bind (Runs.readBytes (Q := fun _ _ => True) ?_
      fun _ _ => trivial) fun _ => Runs.pure fun _ _ => trivial
    simpa [probeSize, dtlsSize] using hle

theorem runs_ngxProcessStunProbe (hmac : List UInt8 → List UInt8 → List UInt8) :
    Runs (·.Within (probeSize 40)) (fun _ => True) (ngxProcessStunProbe hmac alloc 40)
      fun _ _ => True := by
  refine Runs.bind stunProbeCheck_confined.runs fun r => Runs.assume fun ⟨_, hparsed⟩ => ?_
  rcases r with - | - | packet
  · exact Runs.pure fun _ _ => trivial
  · exact Runs.pure fun _ _ => trivial
  · exact (stunProbeReply_runs hmac (hparsed packet rfl)).conseq (fun _ _ => trivial) fun _ _ h => h

/-! ### DTLS -/

/-- A DTLS probe, by the bytes of the datagram: a handshake record of 53 bytes with one client hello
fragment of 41 bytes and a prefix in the random. -/
def DtlsHello (f : Nat → UInt8) : Prop :=
  f 0 = dtlsHandshake ∧ be16 f 11 = 53 ∧ be24 f 22 = 41 ∧ f 13 = dtlsClientHello ∧
    (bytesAt f 35 6 = prefixProbe1 ∨ bytesAt f 35 6 = prefixProbe2)

/-- What the checks have read when they accept. -/
def dtlsChecked (f : Nat → UInt8) : DtlsRecordLayerHeader × DtlsHandshakeHeader × DtlsClientHello :=
  ({ type := f 0, major := f 1, minor := f 2, epoch := be16 f 3, length := be16 f 11 },
    { msgType := f 13, length := be24 f 14, messageSeq := be16 f 17, fragmentOffset := be24 f 19,
      fragmentLength := be24 f 22 },
    { major := f 25, minor := f 26 })

/-- The allocations in front of the answer. -/
def dtlsAllocs (alloc : ProbeAlloc → Bool) : Prop :=
  alloc .record = true ∧ alloc .handshakeHeader = true ∧ alloc .clientHello = true

instance (alloc : ProbeAlloc → Bool) : Decidable (dtlsAllocs alloc) :=
  inferInstanceAs (Decidable (_ ∧ _ ∧ _))

instance (f : Nat → UInt8) : Decidable (DtlsHello f) :=
  inferInstanceAs (Decidable (_ ∧ _ ∧ _ ∧ _ ∧ (_ ∨ _)))

theorem le_dtlsSize_packet {k : Nat} (hk : k ≤ 66) : k ≤ dtlsSize 66 s ck .packet := by
  simp only [dtlsSize]
  omega

theorem stays_ngxGet1Byte {i : Nat} (hi : i < 66) :
    Stays (dtlsSize 66 s ck) probeVisible (ngxGet1Byte .packet i) :=
  stays_readByte trivial (le_dtlsSize_packet hi)

theorem stays_dtlsReadRecord (type : UInt8) :
    Stays (dtlsSize 66 s ck) probeVisible (dtlsReadRecord type) := by
  refine (stays_ngxGet1Byte (by decide)).bind fun _ => ?_
  refine (stays_ngxGet1Byte (by decide)).bind fun _ => ?_
  refine (stays_ngxGet2Bytes trivial (le_dtlsSize_packet (by decide))).bind fun _ => ?_
  refine (stays_ngxMemcpy trivial (le_dtlsSize_packet (by decide))
    (by simp [dtlsSize])).bind fun _ => ?_
  exact (stays_ngxGet2Bytes trivial (le_dtlsSize_packet (by decide))).bind fun _ =>
    Confined.pure fun _ _ => trivial

theorem stays_dtlsReadHandshake : Stays (dtlsSize 66 s ck) probeVisible dtlsReadHandshake := by
  refine (stays_ngxGet1Byte (by decide)).bind fun _ => ?_
  refine (stays_ngxGet3Bytes trivial (le_dtlsSize_packet (by decide))).bind fun _ => ?_
  refine (stays_ngxGet2Bytes trivial (le_dtlsSize_packet (by decide))).bind fun _ => ?_
  refine (stays_ngxGet3Bytes trivial (le_dtlsSize_packet (by decide))).bind fun _ => ?_
  exact (stays_ngxGet3Bytes trivial (le_dtlsSize_packet (by decide))).bind fun _ =>
    Confined.pure fun _ _ => trivial

theorem hasProbePrefix_run (o : ProbeObject) (i : Nat) (s : Store ProbeObject) :
    (hasProbePrefix o i s).1 = decide (bytesAt (s.bytes o) i 6 = prefixProbe1 ∨
      bytesAt (s.bytes o) i 6 = prefixProbe2) ∧ (hasProbePrefix o i s).2.bytes = s.bytes := by
  rw [hasProbePrefix, Mem.bind_run, readBytes_run, probePrefixLen]
  by_cases h : bytesAt (s.bytes o) i 6 = prefixProbe1
  · simp [h]
  · dsimp only
    rw [if_neg h, Mem.bind_run, readBytes_run, Mem.pure_run]
    exact ⟨decide_eq_decide.mpr (by rw [Store.log_bytes]; simp only [h, false_or]), rfl⟩

/-- The checks read inside the 66 bytes, and accept exactly the DTLS probes. -/
theorem dtlsProbeCheck_confined (f : Nat → UInt8) :
    Confined (dtlsSize 66 s ck) probeVisible (fun b => b .packet = f) (dtlsProbeCheck alloc 66)
      (fun r b => r = (if dtlsAllocs alloc ∧ DtlsHello f then some (dtlsChecked f) else none) ∧
        b .packet = f) := by
  have hnone : ∀ {P : (ProbeObject → Nat → UInt8) → Prop}, (∀ b, P b → b .packet = f) →
      ¬(dtlsAllocs alloc ∧ DtlsHello f) → Confined (dtlsSize 66 s ck) probeVisible P
        (pure none : Mem ProbeObject
          (Option (DtlsRecordLayerHeader × DtlsHandshakeHeader × DtlsClientHello)))
        (fun r b => r = (if dtlsAllocs alloc ∧ DtlsHello f then some (dtlsChecked f) else none) ∧
          b .packet = f) :=
    fun hP h => Confined.pure fun b hb => ⟨by rw [if_neg h], hP b hb⟩
  unfold dtlsProbeCheck
  have his : Stays (dtlsSize 66 s ck) probeVisible (ngxIsDtlsProbe 66) :=
    Confined.ite (fun _ => Stays.bind (stays_readByte trivial (le_dtlsSize_packet (by decide))) fun _ =>
      Confined.ite (fun _ => Confined.pure fun _ _ => trivial) fun _ =>
        Confined.pure fun _ _ => trivial) fun _ => Confined.pure fun _ _ => trivial
  have hisRun : ∀ s : Store ProbeObject, s.bytes .packet = f →
      (ngxIsDtlsProbe 66 s).1 = (if f 0 > 19 ∧ f 0 < 64 then .ok else .error) ∧
        (ngxIsDtlsProbe 66 s).2.bytes .packet = f := by
    rintro s rfl
    rw [ngxIsDtlsProbe, if_pos (by decide), Mem.bind_run, readByte_run]
    by_cases h : s.bytes .packet 0 > 19 ∧ s.bytes .packet 0 < 64
    · simp only [if_pos h, Mem.pure_run, Store.log_bytes, and_self]
    · simp only [if_neg h, Mem.pure_run, Store.log_bytes, and_self]
  refine his.known hisRun (Confined.ite (fun h => hnone (fun _ h => h) ?_) fun _ => ?_)
  · rintro ⟨-, hhello, -⟩
    rw [hhello] at h
    exact h rfl
  refine Confined.ite (fun h => hnone (fun _ h => h) ?_) fun hrecord => ?_
  · rintro ⟨⟨hok, -⟩, -⟩
    simp [hok] at h
  refine (stays_ngxGet1Byte (by decide)).known (a := f 0) (by rintro s rfl; exact ⟨rfl, rfl⟩) ?_
  refine Confined.ite (fun h => hnone (fun _ h => h) fun hc => h hc.2.1) fun htype => ?_
  refine (stays_dtlsReadRecord _).known (a := (dtlsChecked f).1)
    (by rintro s rfl; exact ⟨rfl, rfl⟩) ?_
  refine Confined.ite (fun h => hnone (fun _ h => h) fun hc => h hc.2.2.1) fun hlength => ?_
  refine Confined.ite (fun h => hnone (fun _ h => h) ?_) fun hheader => ?_
  · rintro ⟨⟨-, hok, -⟩, -⟩
    simp [hok] at h
  refine stays_dtlsReadHandshake.known (a := (dtlsChecked f).2.1)
    (by rintro s rfl; exact ⟨rfl, rfl⟩) ?_
  refine Confined.ite (fun h => hnone (fun _ h => h) ?_) fun hfragment => ?_
  · rintro ⟨-, -, -, hlen, hty, -⟩
    rcases h with h | h
    · exact h hlen
    · exact h hty
  refine Confined.ite (fun h => hnone (fun _ h => h) ?_) fun hclient => ?_
  · rintro ⟨⟨-, -, hok⟩, -⟩
    simp [hok] at h
  refine (stays_ngxGet1Byte (by decide)).known (a := f 25) (by rintro s rfl; exact ⟨rfl, rfl⟩) ?_
  refine (stays_ngxGet1Byte (by decide)).known (a := f 26) (by rintro s rfl; exact ⟨rfl, rfl⟩) ?_
  refine Confined.bind (Q := fun _ b => b .packet = f ∧ bytesAt (b .chRandom) 8 6 = bytesAt f 35 6)
    (Confined.ngxMemcpy trivial (le_dtlsSize_packet (by decide)) (by simp [dtlsSize]) ?_) fun _ => ?_
  · rintro b rfl
    refine ⟨rfl, ?_⟩
    rw [Function.update_self]
    apply List.map_congr_left
    intro k hk
    have hk := List.mem_range.mp hk
    rw [show 8 + k = 0 + (8 + k) by omega]
    rw [overlay_some (b := b .packet (35 + k))]
    rw [List.getElem?_map, bytesAt_getElem? _ _ (by rw [ssl3RandomSize]; omega)]
    rw [Option.map_some, show 27 + (8 + k) = 35 + k by omega]
  have hpre : Stays (dtlsSize 66 s ck) probeVisible (hasProbePrefix .chRandom 8) :=
    stays_hasProbePrefix trivial (by simp [dtlsSize, ssl3RandomSize])
  refine hpre.known (a := decide (bytesAt f 35 6 = prefixProbe1 ∨ bytesAt f 35 6 = prefixProbe2))
    (fun s hs => ?_) ?_
  · obtain ⟨hval, hbytes⟩ := hasProbePrefix_run .chRandom 8 s
    rw [hval, hbytes, hs.2]
    exact ⟨rfl, hs.1, rfl⟩
  refine Confined.ite (fun h => hnone (fun _ h => h.1) ?_) fun h => ?_
  · rintro ⟨-, -, -, -, -, hpre⟩
    simp [hpre] at h
  · have haccepted : dtlsAllocs alloc ∧ DtlsHello f := by
      simp only [Bool.not_eq_true', Bool.not_eq_false, decide_eq_true_eq] at hrecord hheader hclient h
      rw [not_or, not_not, not_not] at hfragment
      exact ⟨⟨hrecord, hheader, hclient⟩, not_not.mp htype, not_not.mp hlength, hfragment.1,
        hfragment.2, h⟩
    refine Confined.pure fun b hb => ⟨?_, hb.1⟩
    rw [if_pos haccepted]
    rfl

/-- The client hello as it is read: the cookie length behind the session id, the other fields behind the
cookie. -/
def dtlsHelloRead (f : Nat → UInt8) (ch : DtlsClientHello) : DtlsClientHello :=
  let pos := 60 + (f 59).toNat
  let pos' := pos + 1 + (f pos).toNat
  { ch with
    sessionIdLen := f 59
    dtlsCookieLen := f pos
    ciphersuite := be16 f pos'
    compressionMethod := f (pos' + 2)
    extensionLen := be16 f (pos' + 3) }

theorem stays_copyNonempty {size : ProbeObject → Nat} {dst src : ProbeObject} {i j m : Nat}
    (hvis : probeVisible src) (hr : j + m ≤ size src) (hw : i + m ≤ size dst) :
    Stays size probeVisible (copyNonempty dst i src j m) :=
  Confined.ite (fun _ => stays_ngxMemcpy hvis hr hw) fun _ => Confined.pure fun _ _ => trivial

theorem copyNonempty_of_ne {o dst src : ProbeObject} (ho : o ≠ dst) (i j m : Nat)
    (s : Store ProbeObject) : (copyNonempty dst i src j m s).2.bytes o = s.bytes o := by
  rw [copyNonempty]
  by_cases h : m > 0
  · rw [if_pos h]
    simp [ngxMemcpy, ho]
  · rw [if_neg h, Mem.pure_run]

theorem dtlsReadClientHello_confined {f : Nat → UInt8} (ch : DtlsClientHello)
    (hs : (f 59).toNat = s) (hck : (f (60 + s)).toNat = ck) :
    Confined (dtlsSize 66 s ck) probeVisible (fun b => b .packet = f) (dtlsReadClientHello ch)
      (fun r b => r = dtlsHelloRead f ch ∧ b .packet = f) := by
  subst hs hck
  unfold dtlsReadClientHello
  refine (stays_ngxGet1Byte (by decide)).known (a := f 59) (by rintro s rfl; exact ⟨rfl, rfl⟩) ?_
  refine Stays.keeping (stays_copyNonempty trivial ?_ ?_)
    (fun s h => by rw [copyNonempty_of_ne (by decide), h]) fun _ => ?_
  · simp only [dtlsSize]
    omega
  · simp only [dtlsSize]
    omega
  refine Stays.known (m := ngxGet1Byte _ _) (a := f (60 + (f 59).toNat)) (stays_readByte trivial ?_)
    (by rintro s rfl; exact ⟨rfl, rfl⟩) ?_
  · simp only [dtlsSize]
    omega
  refine Stays.keeping (stays_copyNonempty trivial ?_ ?_)
    (fun s h => by rw [copyNonempty_of_ne (by decide), h]) fun _ => ?_
  · simp only [dtlsSize]
    omega
  · simp only [dtlsSize]
    omega
  refine (stays_ngxGet2Bytes trivial ?_).known
    (a := be16 f (60 + (f 59).toNat + 1 + (f (60 + (f 59).toNat)).toNat))
    (by rintro s rfl; exact ⟨rfl, rfl⟩) ?_
  · simp only [dtlsSize]
    omega
  refine Stays.known (m := ngxGet1Byte _ _)
    (a := f (60 + (f 59).toNat + 1 + (f (60 + (f 59).toNat)).toNat + 2)) (stays_readByte trivial ?_)
    (by rintro s rfl; exact ⟨rfl, rfl⟩) ?_
  · simp only [dtlsSize]
    omega
  refine (stays_ngxGet2Bytes trivial ?_).known
    (a := be16 f (60 + (f 59).toNat + 1 + (f (60 + (f 59).toNat)).toNat + 3))
    (by rintro s rfl; exact ⟨rfl, rfl⟩) (Confined.pure fun b hb => ⟨rfl, hb⟩)
  simp only [dtlsSize]
  omega

theorem stays_packet_storeBack {i : Nat} {l : List UInt8} (h : i + l.length ≤ 66 + s + ck) :
    Stays (dtlsSize 66 s ck) probeVisible (storeBack .packet i l) :=
  stays_storeBack (by simpa [dtlsSize] using h)

theorem stays_ngxServerHelloSerialize {sh : DtlsServerHello} {base : Nat}
    (hlen : sh.sessionIdLen ≤ 32 + s) (hroom : base + 40 + sh.sessionIdLen ≤ 66 + s + ck) :
    Stays (dtlsSize 66 s ck) probeVisible (ngxServerHelloSerialize sh base) := by
  refine Stays.bind (m := ngxSet1Byte _ _ _) (stays_packet_storeBack (by simp; omega)) fun _ => ?_
  refine Stays.bind (m := ngxSet1Byte _ _ _) (stays_packet_storeBack (by simp; omega)) fun _ => ?_
  refine Stays.bind (stays_ngxMemcpy trivial (by simp [dtlsSize])
    (by simp [dtlsSize, ssl3RandomSize]; omega)) fun _ => ?_
  refine Stays.bind (m := ngxSet1Byte _ _ _) (stays_packet_storeBack (by simp; omega)) fun _ => ?_
  refine Stays.bind (stays_copyNonempty trivial (by simp [dtlsSize]; omega)
    (by simp [dtlsSize]; omega)) fun _ => ?_
  refine Stays.bind (m := ngxSet2Bytes _ _ _) (stays_packet_storeBack (by simp [split16]; omega)) fun _ => ?_
  refine Stays.bind (m := ngxSet1Byte _ _ _) (stays_packet_storeBack (by simp; omega)) fun _ => ?_
  exact Stays.bind (m := ngxSet2Bytes _ _ _) (stays_packet_storeBack (by simp [split16]; omega)) fun _ =>
    Confined.pure fun _ _ => trivial

theorem ngxServerHelloSerialize_value (sh : DtlsServerHello) (base : Nat) (s : Store ProbeObject) :
    (ngxServerHelloSerialize sh base s).1 = 40 + sh.sessionIdLen := by
  simp only [ngxServerHelloSerialize, Mem.bind_run, Mem.pure_run]
  omega

theorem stays_ngxHandshakeSerialize {hs : DtlsHandshakeHeader} {sh : DtlsServerHello}
    (hlen : sh.sessionIdLen ≤ s) :
    Stays (dtlsSize 66 s ck) probeVisible (ngxHandshakeSerialize hs sh 13) := by
  refine Stays.bind (m := ngxSet1Byte _ _ _) (stays_packet_storeBack (by simp; omega)) fun _ => ?_
  refine Stays.bind (m := ngxSet3Bytes _ _ _) (stays_packet_storeBack (by simp [split24]; omega)) fun _ => ?_
  refine Stays.bind (m := ngxSet2Bytes _ _ _) (stays_packet_storeBack (by simp [split16]; omega)) fun _ => ?_
  refine Stays.bind (m := ngxSet3Bytes _ _ _) (stays_packet_storeBack (by simp [split24]; omega)) fun _ => ?_
  refine Confined.ite (fun _ => ?_) fun _ => Confined.pure fun _ _ => trivial
  refine (stays_ngxServerHelloSerialize (by omega) (by omega)).bind fun _ => ?_
  refine Stays.bind (m := ngxSet3Bytes _ _ _) (stays_packet_storeBack (by simp [split24]; omega)) fun _ => ?_
  exact Stays.bind (m := ngxSet3Bytes _ _ _) (stays_packet_storeBack (by simp [split24]; omega)) fun _ =>
    Confined.pure fun _ _ => trivial

theorem ngxHandshakeSerialize_value {hs : DtlsHandshakeHeader} (hty : hs.msgType = dtlsServerHello)
    (sh : DtlsServerHello) (base : Nat) (s : Store ProbeObject) :
    (ngxHandshakeSerialize hs sh base s).1 = 52 + sh.sessionIdLen := by
  simp only [ngxHandshakeSerialize, Mem.bind_run, if_pos hty, Mem.pure_run,
    ngxServerHelloSerialize_value]
  omega

theorem stays_ngxRecordLayerSerialize {record : DtlsRecordLayerHeader} {hs : DtlsHandshakeHeader}
    {sh : DtlsServerHello} (hlen : sh.sessionIdLen ≤ s) :
    Stays (dtlsSize 66 s ck) probeVisible (ngxRecordLayerSerialize record hs sh) := by
  refine Stays.bind (m := ngxSet1Byte _ _ _) (stays_packet_storeBack (by simp; omega)) fun _ => ?_
  refine Stays.bind (m := ngxSet1Byte _ _ _) (stays_packet_storeBack (by simp; omega)) fun _ => ?_
  refine Stays.bind (m := ngxSet1Byte _ _ _) (stays_packet_storeBack (by simp; omega)) fun _ => ?_
  refine Stays.bind (m := ngxSet2Bytes _ _ _) (stays_packet_storeBack (by simp [split16]; omega)) fun _ => ?_
  refine Stays.bind (stays_ngxMemcpy trivial (by simp [dtlsSize]) (le_dtlsSize_packet (by decide)))
    fun _ => ?_
  refine Confined.ite (fun _ => ?_) fun _ => Confined.pure fun _ _ => trivial
  refine (stays_ngxHandshakeSerialize hlen).bind fun _ => ?_
  exact Stays.bind (m := ngxSet2Bytes _ _ _) (stays_packet_storeBack (by simp [split16]; omega)) fun _ =>
    Confined.pure fun _ _ => trivial

theorem ngxRecordLayerSerialize_value {record : DtlsRecordLayerHeader} {hs : DtlsHandshakeHeader}
    (htype : record.type = dtlsHandshake) (hty : hs.msgType = dtlsServerHello)
    (sh : DtlsServerHello) (s : Store ProbeObject) :
    (ngxRecordLayerSerialize record hs sh s).1 = 65 + sh.sessionIdLen := by
  simp only [ngxRecordLayerSerialize, Mem.bind_run, if_pos htype, Mem.pure_run,
    ngxHandshakeSerialize_value hty]
  omega

theorem stays_dtlsServerHelloFrom {ch : DtlsClientHello} (hlen : ch.sessionIdLen.toNat ≤ s) :
    Stays (dtlsSize 66 s ck) probeVisible (dtlsServerHelloFrom ch) := by
  refine Stays.bind (stays_ngxMemcpy trivial (by simp [dtlsSize]) (by simp [dtlsSize])) fun _ => ?_
  refine Stays.bind (stays_writeByte (by simp [dtlsSize, ssl3RandomSize, probePrefixLen])) fun _ => ?_
  refine Stays.bind (stays_readByte trivial (by simp [dtlsSize, ssl3RandomSize, probePrefixLen]))
    fun _ => ?_
  refine Stays.bind (stays_writeByte (by simp [dtlsSize, ssl3RandomSize, probePrefixLen])) fun _ => ?_
  exact Stays.bind (stays_ngxMemcpy trivial (by simp [dtlsSize]; omega) (by simp [dtlsSize]; omega))
    fun _ => Confined.pure fun _ _ => trivial

/-- The server hello that `dtlsServerHelloFrom` returns. -/
def dtlsAnswer (ch : DtlsClientHello) : DtlsServerHello :=
  { major := ch.major, minor := 0xfd, sessionIdLen := ch.sessionIdLen.toNat,
    ciphersuite := ch.ciphersuite, compressionMethod := ch.compressionMethod,
    extensionLen := ch.extensionLen }

theorem dtlsServerHelloFrom_value (ch : DtlsClientHello) (t : Store ProbeObject) :
    (dtlsServerHelloFrom ch t).1 = dtlsAnswer ch := by
  simp only [dtlsServerHelloFrom, Mem.bind_run, Mem.pure_run, dtlsAnswer]

/-- What is left to do when the client hello has been read. -/
def dtlsProbeAnswer (alloc : ProbeAlloc → Bool) (record : DtlsRecordLayerHeader)
    (hs : DtlsHandshakeHeader) (ch : DtlsClientHello) : ProbeM :=
  if !alloc .serverHello then probeDone
  else if !alloc .username then probeDone
  else do
    probeUsername .chRandom (8 + probePrefixLen + 2)
    let sh ← dtlsServerHelloFrom ch
    let pos ← ngxRecordLayerSerialize { record with minor := 0xfd }
      { hs with msgType := dtlsServerHello } sh
    if pos > 0 then ngxReplyProbe .packet pos .ok else probeDone

theorem dtlsProbeReply_eq (record : DtlsRecordLayerHeader) (hs : DtlsHandshakeHeader)
    (ch : DtlsClientHello) : dtlsProbeReply alloc record hs ch =
      dtlsReadClientHello ch >>= dtlsProbeAnswer alloc record hs := rfl

theorem stays_dtlsProbeAnswer {record : DtlsRecordLayerHeader} {hs : DtlsHandshakeHeader}
    {ch : DtlsClientHello} (htype : record.type = dtlsHandshake)
    (hlen : ch.sessionIdLen.toNat ≤ s) :
    Stays (dtlsSize 66 s ck) probeVisible (dtlsProbeAnswer alloc record hs ch) := by
  have hname : Stays (dtlsSize 66 s ck) probeVisible
      (probeUsername .chRandom (8 + probePrefixLen + 2)) :=
    stays_probeUsername trivial (by simp [dtlsSize, ssl3RandomSize, probePrefixLen])
  unfold dtlsProbeAnswer
  refine Confined.ite (fun _ => stays_probeDone) fun _ => Confined.ite (fun _ => stays_probeDone)
    fun _ => hname.bind fun _ => ?_
  have hanswer : (dtlsAnswer ch).sessionIdLen ≤ s := hlen
  refine (stays_dtlsServerHelloFrom hlen).next (dtlsServerHelloFrom_value ch) ?_
  have hpos : ∀ t, (ngxRecordLayerSerialize { record with minor := 0xfd }
      { hs with msgType := dtlsServerHello } (dtlsAnswer ch) t).1 =
        65 + (dtlsAnswer ch).sessionIdLen := by
    intro t
    apply ngxRecordLayerSerialize_value
    · exact htype
    · rfl
  refine (stays_ngxRecordLayerSerialize hanswer).next hpos ?_
  exact Confined.ite (fun _ => stays_ngxReplyProbe (by omega)) fun _ => stays_probeDone

/-- The DTLS probe stays where its two length bytes allow it to go. -/
theorem ngxProcessDtlsProbe_confined {f : Nat → UInt8} (hs : (f 59).toNat = s)
    (hck : (f (60 + s)).toNat = ck) :
    Confined (dtlsSize 66 s ck) probeVisible (fun b => b .packet = f) (ngxProcessDtlsProbe alloc 66)
      fun _ _ => True := by
  refine Confined.bind (dtlsProbeCheck_confined f) fun r => Confined.assume fun ⟨_, hr, _⟩ => ?_
  by_cases h : dtlsAllocs alloc ∧ DtlsHello f
  · rw [if_pos h] at hr
    subst hr
    refine Confined.conseq (P := fun b => b .packet = f) (Q := fun _ _ => True) ?_
      (fun _ h => h.2) fun _ _ h => h
    change Confined _ _ _ (dtlsProbeReply alloc _ _ _) _
    rw [dtlsProbeReply_eq]
    refine Confined.bind (dtlsReadClientHello_confined _ hs hck) fun ch =>
      Confined.assume fun ⟨_, hch, _⟩ => ?_
    refine Confined.conseq (stays_dtlsProbeAnswer h.2.1 ?_) (fun _ _ => trivial) fun _ _ h => h
    rw [hch, ← hs]
    rfl
  · rw [if_neg h] at hr
    subst hr
    exact Confined.pure fun _ _ => trivial

/-- A datagram that is not a DTLS probe is not followed beyond its 66 bytes. -/
theorem ngxProcessDtlsProbe_refused {f : Nat → UInt8} (h : ¬DtlsHello f) :
    Confined (probeSize 66) probeVisible (fun b => b .packet = f) (ngxProcessDtlsProbe alloc 66)
      fun r _ => r = some { ret := .done } := by
  refine Confined.bind (dtlsProbeCheck_confined f) fun r => Confined.assume fun ⟨_, hr, _⟩ => ?_
  rw [if_neg fun hc => h hc.2] at hr
  subst hr
  exact Confined.pure fun _ _ => rfl

/-- The last byte of the client hello lies behind the session id and the cookie. -/
theorem dtlsReadClientHello_reads (ch : DtlsClientHello) {f : Nat → UInt8} {t : Store ProbeObject}
    (ht : t.bytes .packet = f) :
    ⟨.packet, 65 + (f 59).toNat + (f (60 + (f 59).toNat)).toNat, 1, false⟩ ∈
      (dtlsReadClientHello ch t).2.trace := by
  subst ht
  have hlast : ∀ (i : Nat) (t : Store ProbeObject),
      ⟨.packet, i + 1, 1, false⟩ ∈ (ngxGet2Bytes ProbeObject.packet i t).2.trace := by
    intro i t
    simp [ngxGet2Bytes]
  have hcookie : ∀ (i n : Nat) (t : Store ProbeObject),
      (copyNonempty .chSessionId 0 .packet 60 n t).2.bytes .packet i = t.bytes .packet i := by
    intro i n t
    rw [copyNonempty_of_ne (by decide)]
  unfold dtlsReadClientHello
  simp only [Mem.bind_run, Mem.pure_run, ngxGet1Byte_result, ngxGet1Byte_bytes, hcookie]
  convert hlast _ _ using 2
  omega

end Confined

/-! ### The whole of `ngx_process_probe` -/

section InBounds

variable (hmac : List UInt8 → List UInt8 → List UInt8) (c : ProbeConnection)

/-- Every access of every run stays inside its object, whatever lies behind the datagram, whatever the
allocator returns and whichever allocations fail. -/
def ProbeInBounds : Prop :=
  ∀ alloc after blocks, ∀ a ∈ (probeRun hmac alloc c after blocks).2.trace,
    a.Within (probeSize (c.datagram.getD []).length)

/-- A DTLS probe whose session id or cookie is not empty. -/
def DtlsOverread (d : List UInt8) : Prop :=
  d.length = 66 ∧ DtlsHello (d.getD · 0) ∧ (d.getD 59 0 ≠ 0 ∨ d.getD 60 0 ≠ 0)

theorem probeStore_packet {d : List UInt8} {after : Nat → UInt8} {blocks : ProbeObject → Nat → UInt8}
    {k : Nat} (hk : k < d.length) : (probeStore d after blocks).bytes .packet k = d.getD k 0 :=
  if_pos hk

theorem DtlsHello.congr {f g : Nat → UInt8} (h : DtlsHello f) (hfg : ∀ k < 66, g k = f k) :
    DtlsHello g := by
  obtain ⟨h0, hlen, hfrag, hty, hpre⟩ := h
  have hbytes : bytesAt g 35 6 = bytesAt f 35 6 := bytesAt_congr fun k _ hk => hfg k (by omega)
  refine ⟨?_, ?_, ?_, ?_, ?_⟩
  · rw [hfg 0 (by decide), h0]
  · rw [← hlen, be16, be16, hfg 11 (by decide), hfg 12 (by decide)]
  · rw [← hfrag, be24, be24, hfg 22 (by decide), hfg 23 (by decide), hfg 24 (by decide)]
  · rw [hfg 13 (by decide), hty]
  · rw [hbytes]
    exact hpre

theorem dtlsHello_probeStore_iff {d : List UInt8} (hd : d.length = 66) {after : Nat → UInt8}
    {blocks : ProbeObject → Nat → UInt8} :
    DtlsHello ((probeStore d after blocks).bytes .packet) ↔ DtlsHello (d.getD · 0) :=
  ⟨fun h => h.congr fun _ hk => (probeStore_packet (by omega)).symm,
    fun h => h.congr fun _ hk => probeStore_packet (by omega)⟩

variable {c}

theorem processProbe_inBounds {alloc : ProbeAlloc → Bool} {d : List UInt8} (h : ¬DtlsOverread d)
    (after : Nat → UInt8) (blocks : ProbeObject → Nat → UInt8) :
    ∀ a ∈ (processProbe hmac alloc d.length (probeStore d after blocks)).2.trace,
      a.Within (probeSize d.length) := by
  unfold processProbe
  split_ifs with h24 h36 h40 h66
  · rw [h24]
    exact (Confined.runs stays_ngxProcessUdpProbe).trace_all trivial rfl
  · rw [h36]
    exact (Confined.runs stays_ngxProcessRtpProbe).trace_all trivial rfl
  · rw [h40]
    exact (runs_ngxProcessStunProbe hmac).trace_all trivial rfl
  · rw [h66]
    by_cases hhello : DtlsHello (d.getD · 0)
    · have hzero : d.getD 59 0 = 0 ∧ d.getD 60 0 = 0 := by
        by_contra hne
        exact h ⟨h66, hhello, by tauto⟩
      have hs : ((probeStore d after blocks).bytes .packet 59).toNat = 0 := by
        rw [probeStore_packet (by omega), hzero.1]
        rfl
      have hck : ((probeStore d after blocks).bytes .packet (60 + 0)).toNat = 0 := by
        rw [probeStore_packet (by omega), hzero.2]
        rfl
      exact (ngxProcessDtlsProbe_confined hs hck).runs.trace_all rfl rfl
    · exact (ngxProcessDtlsProbe_refused fun hc => hhello
        ((dtlsHello_probeStore_iff h66).mp hc)).runs.trace_all rfl rfl
  · simp [probeDone, probeStore]

/-- With a session id or a cookie the last byte of the client hello is behind the datagram. -/
theorem DtlsOverread.last {d : List UInt8} (h : DtlsOverread d) {after : Nat → UInt8}
    {blocks : ProbeObject → Nat → UInt8} {f : Nat → UInt8}
    (hf : (probeStore d after blocks).bytes .packet = f) :
    66 ≤ 65 + (f 59).toNat + (f (60 + (f 59).toNat)).toNat := by
  obtain ⟨hd, -, hne⟩ := h
  by_contra hlt
  have hs : (f 59).toNat = 0 := by omega
  rw [hs] at hlt
  have hck : (f (60 + 0)).toNat = 0 := by omega
  rw [← hf, probeStore_packet (by omega)] at hs hck
  rcases hne with hne | hne
  · exact hne (UInt8.toNat_inj.mp hs)
  · exact hne (UInt8.toNat_inj.mp hck)

/-- An accepted DTLS probe runs through the reading of the client hello into the answer. -/
theorem ngxProcessDtlsProbe_run {alloc : ProbeAlloc → Bool} {f : Nat → UInt8}
    (h : dtlsAllocs alloc ∧ DtlsHello f) {t : Store ProbeObject} (ht : t.bytes .packet = f) :
    ∃ t₁, t₁.bytes .packet = f ∧ ngxProcessDtlsProbe alloc 66 t =
      (dtlsReadClientHello (dtlsChecked f).2.2 >>=
        dtlsProbeAnswer alloc (dtlsChecked f).1 (dtlsChecked f).2.1) t₁ := by
  have hcheck : Confined (dtlsSize 66 0 0) probeVisible _ (dtlsProbeCheck alloc 66) _ :=
    dtlsProbeCheck_confined f
  obtain ⟨-, hr, hpacket⟩ := hcheck.runs t ht
  refine ⟨_, hpacket, ?_⟩
  rw [if_pos h] at hr
  rw [ngxProcessDtlsProbe, Mem.bind_run, hr, ← dtlsProbeReply_eq]

theorem processProbe_overreads {d : List UInt8} (h : DtlsOverread d) (after : Nat → UInt8)
    (blocks : ProbeObject → Nat → UInt8) :
    ∃ a ∈ (processProbe hmac (fun _ => true) d.length (probeStore d after blocks)).2.trace,
      ¬a.Within (probeSize d.length) := by
  obtain ⟨f, hf⟩ : ∃ f, (probeStore d after blocks).bytes .packet = f := ⟨_, rfl⟩
  have hlast := h.last hf
  obtain ⟨hd, hhello, -⟩ := h
  have hhello' : DtlsHello f := by
    rw [← hf]
    exact (dtlsHello_probeStore_iff hd).mpr hhello
  obtain ⟨t₁, ht₁, hrun⟩ := ngxProcessDtlsProbe_run
    (⟨⟨rfl, rfl, rfl⟩, hhello'⟩ : dtlsAllocs (fun _ => true) ∧ DtlsHello f) hf
  have hread := dtlsReadClientHello_reads (dtlsChecked f).2.2 ht₁
  obtain ⟨-, hch, hpacket⟩ := (dtlsReadClientHello_confined (dtlsChecked f).2.2 rfl rfl).runs t₁ ht₁
  refine ⟨⟨.packet, 65 + (f 59).toNat + (f (60 + (f 59).toNat)).toNat, 1, false⟩, ?_, ?_⟩
  · have hanswer : Stays (dtlsSize 66 (f 59).toNat 0) probeVisible
        (dtlsProbeAnswer (fun _ => true) (dtlsChecked f).1 (dtlsChecked f).2.1
          (dtlsReadClientHello (dtlsChecked f).2.2 t₁).1) := by
      refine stays_dtlsProbeAnswer hhello'.1 ?_
      rw [hch]
      exact le_rfl
    rw [processProbe, if_neg (by omega), if_neg (by omega), if_neg (by omega), if_pos hd, hd, hrun,
      Mem.bind_run]
    exact (Confined.runs hanswer).mem_trace trivial hread
  · rw [Access.within_iff Nat.one_pos]
    simp only [hd, probeSize, dtlsSize]
    omega

variable (c)

/-- **Bounds.** `ngx_process_probe` stays in bounds exactly when the datagram is not a DTLS probe with a
session id or a cookie. -/
theorem ngxProcessProbe_inBounds_iff :
    ProbeInBounds hmac c ↔ ∀ d, c.datagram = some d → ¬DtlsOverread d := by
  constructor
  · intro h d hd hover
    obtain ⟨a, ha, hout⟩ := processProbe_overreads hmac hover (fun _ => 0) fun _ _ => 0
    refine hout ?_
    have hin := h (fun _ => true) (fun _ => 0) (fun _ _ => 0) a
    rw [probeRun, hd] at hin
    exact hin ha
  · intro h alloc after blocks a ha
    rw [probeRun] at ha
    cases hd : c.datagram with
    | none =>
        rw [hd] at ha
        simp [probeStore] at ha
    | some d =>
        rw [hd] at ha
        exact processProbe_inBounds hmac (h d hd) after blocks a ha

/-- A DTLS probe of 66 bytes with the given session id and cookie lengths. -/
def dtlsProbeDatagram (sessionIdLen cookieLen : UInt8) : List UInt8 :=
  [22, 0xfe, 0xff, 0, 0, 0, 0, 0, 0, 0, 0, 0, 53] ++ [1, 0, 0, 41, 0, 0, 0, 0, 0, 0, 0, 41]
    ++ [0xfe, 0xfd] ++ List.replicate 8 0 ++ prefixProbe1 ++ [1, 0] ++ List.replicate 16 0
    ++ [sessionIdLen, cookieLen, 0xc0, 0x2b, 0, 0, 0]

/-- One byte of session id: the extension length is read at index 66. -/
theorem dtlsProbeDatagram_not_inBounds : ¬ProbeInBounds (fun _ _ => [])
    { dgram := true, buffer := some (dtlsProbeDatagram 1 0), udp := none } := by
  intro h
  have hover : DtlsOverread (dtlsProbeDatagram 1 0) :=
    ⟨by decide, by unfold DtlsHello; decide, by decide⟩
  obtain ⟨a, ha, hout⟩ := processProbe_overreads (fun _ _ => []) hover (fun _ => 0) fun _ _ => 0
  exact hout (h (fun _ => true) (fun _ => 0) (fun _ _ => 0) a ha)

end InBounds

end NginxDtls
