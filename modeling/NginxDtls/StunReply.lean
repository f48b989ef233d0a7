import NginxDtls.StunAccept
import NginxDtls.ProbeBounds

/-! The answer to a STUN request, built as `ngx_process_stun_probe` builds it: the request is parsed into a zeroed
packet, the class is changed, and the packet is serialized into a block as long as the request. -/

namespace NginxDtls

open Memory

/-- An accepted message has a length that fits into the steps of the parser. -/
theorem ngxStunParse_ok_length {p p' : StunPacket} {len : Nat} {s s' : Store ProbeObject} (hmin : 20 ≤ len)
    (hmax : len ≤ 65535) (h : ngxStunParse p len s = (some (.ok, p'), s')) : len ≤ 65532 := by
  by_cases hhead : (be16 (s.bytes .packet) 2).toNat = len - 20 ∧ be16 (s.bytes .packet) 2 &&& 0x03 = 0
  · have hmult := (and_three_eq_zero _).mp hhead.2
    omega
  · obtain ⟨s₁, hrun⟩ := ngxStunParse_refuses (p := p) hmin hmax hhead
    rw [hrun] at h
    simp at h

/-- What an accepted message leaves in a zeroed packet. -/
theorem ngxStunParse_ok_parsed {p : StunPacket} {len : Nat} {s s' : Store ProbeObject} (hmin : 20 ≤ len)
    (hmax : len ≤ 65535) (h : ngxStunParse {} len s = (some (.ok, p), s')) : StunParsed len p := by
  have hlen := ngxStunParse_ok_length hmin hmax h
  have hsize : len ≤ probeSize len .packet := le_rfl
  have hvisible : probeVisible .packet := trivial
  have hconfined := ngxStunParse_confined hvisible hsize rfl (by omega) hlen
  have hend := (hconfined.runs s trivial).2
  rw [h] at hend
  exact hend p rfl

/-- The answer to an accepted message fits into a block of the length of the message: it is written, it is no longer
than the message, and no access leaves the block. -/
theorem ngxStunSerialize_fits (hmac : List UInt8 → List UInt8 → List UInt8) (len : Nat) (s s' : Store ProbeObject)
    (p : StunPacket) (hmin : 20 ≤ len) (hmax : len ≤ 65535)
    (hparse : ngxStunParse {} len s = (some (.ok, p), s')) :
    ∃ q t, ngxStunSerialize hmac { p with klass := .successResponse } len s' = ((.ok, q), t) ∧ q.size ≤ len ∧
      ∃ accesses, t.trace = accesses ++ s'.trace ∧ (∀ a ∈ accesses, a.Within (probeSize len)) ∧
        ∀ a ∈ accesses, a.object = .reply → ∀ i, a.first ≤ i → i < a.first + a.count → i < len := by
  have hparsed := ngxStunParse_ok_parsed hmin hmax hparse
  obtain ⟨packet, hpacket⟩ : ∃ packet : StunPacket, packet = { p with klass := .successResponse } := ⟨_, rfl⟩
  have hanswer : StunParsed len packet := by
    rw [hpacket]
    exact ⟨hparsed.echo, hparsed.usernameLen, hparsed.transactionId, hparsed.mapped, hparsed.password⟩
  have hclass : packet.klass = .successResponse := by rw [hpacket]
  have hsize : stunSerializedSize packet ≤ len := (stunSerializedSize_le_echo hanswer hclass).trans hanswer.echo
  have htid : packet.transactionId.object ≠ .reply := by
    rw [hanswer.transactionId]
    decide
  have hemits := ngxStunSerialize_emits (s := s') hmac hanswer.usernameLen hanswer.mapped hanswer.password htid hsize
  have hvisible : probeVisible .packet := trivial
  have hstays : Stays (probeSize len) probeVisible (ngxStunSerialize hmac packet len) :=
    stays_ngxStunSerialize hmac hvisible hmin trivial rfl hanswer hclass
  obtain ⟨⟨accesses, htrace, hwithin⟩, -⟩ := hstays.runs s' trivial
  rw [← hpacket]
  refine ⟨_, (ngxStunSerialize hmac packet len s').2, Prod.ext hemits.1 rfl, hsize, accesses, htrace, hwithin, ?_⟩
  intro a ha hreply i hfirst hlast
  have hbound := hwithin a ha i hfirst hlast
  rw [hreply] at hbound
  exact hbound

/-- The answer to a binding request with PRIORITY 7, with a MAC that is never used. -/
theorem ngxStunSerialize_fits_priorityRequest :
    ∃ p s', ngxStunParse {} 28 ⟨fun _ => bytesOf priorityRequest, []⟩ = (some (.ok, p), s') ∧
      ∃ q t, ngxStunSerialize (fun _ _ => []) { p with klass := .successResponse } 28 s' = ((.ok, q), t) ∧
        q.size ≤ 28 := by
  have hparse : ∃ p s', ngxStunParse {} 28 ⟨fun _ => bytesOf priorityRequest, []⟩ = (some (.ok, p), s') :=
    ⟨_, _, rfl⟩
  obtain ⟨p, s', hparse⟩ := hparse
  obtain ⟨q, t, hrun, hsize, -⟩ :=
    ngxStunSerialize_fits (fun _ _ => []) 28 _ s' p (by decide) (by decide) hparse
  exact ⟨p, s', hparse, q, t, hrun, hsize⟩

end NginxDtls
