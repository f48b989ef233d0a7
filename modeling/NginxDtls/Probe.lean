import NginxDtls.Stun

/-! `ngx_process_probe` and the four probe kinds of `ngx_stream_probe.c`. A probe is recognised by its
length; every kind then checks its own framing and the six bytes `probe:` or `tools:`, changes the
hop fields and sends the packet back. The UDP, RTP and DTLS replies are built in the receive buffer,
the STUN reply in a fresh block. An index beyond an array stays in the object of that array. -/

namespace NginxDtls

open Memory

/-- `prefix_probe_1`, the bytes of `probe:`. -/
def prefixProbe1 : List UInt8 := [0x70, 0x72, 0x6f, 0x62, 0x65, 0x3a]

/-- `prefix_probe_2`, the bytes of `tools:`. -/
def prefixProbe2 : List UInt8 := [0x74, 0x6f, 0x6f, 0x6c, 0x73, 0x3a]

def probeUsernameLen : Nat := 16

def probePrefixLen : Nat := 6

def rtpHeaderSize : Nat := 12

def ssl3RandomSize : Nat := 32

def dtlsRecordLayerSeqNumSize : Nat := 6

/-- The allocations of the probe code, by what is allocated. -/
inductive ProbeAlloc where
  | username
  | stunPacket
  | reply
  | record
  | handshakeHeader
  | clientHello
  | serverHello
  deriving DecidableEq

/-- What a probe function returns and the datagrams it has sent. -/
structure ProbeResult where
  ret : NgxInt
  replies : List (List UInt8) := []

/-- A run of a probe function; `none` is a run that does not come back (the write through the
unchecked pointer of the STUN reply, when that allocation fails). -/
abbrev ProbeM := Mem ProbeObject (Option ProbeResult)

/-- Not a probe: nothing is sent and the datagram goes on to the next handler. -/
def probeDone : ProbeM := pure (some { ret := .done })

/-- The two `ngx_memcmp` against the prefixes. -/
def hasProbePrefix (o : ProbeObject) (i : Nat) : Mem ProbeObject Bool := do
  let first ← readBytes o i probePrefixLen
  if first = prefixProbe1 then pure true
  else do
    let second ← readBytes o i probePrefixLen
    pure (decide (second = prefixProbe2))

/-- `ngx_udp_send` of the first `len` bytes of `o`, the tail of every probe function. -/
def ngxReplyProbe (o : ProbeObject) (len : Nat) (ret : NgxInt) : ProbeM := do
  let reply ← readBytes o 0 len
  pure (some { ret := ret, replies := [reply] })

def ngxIsRtpProbe (len : Nat) : Mem ProbeObject NgxInt :=
  if len ≥ rtpHeaderSize then do
    let b ← readByte .packet 0
    -- the version is the upper two bits of the first byte
    if b > 127 ∧ b < 192 ∧ b >>> 6 = 2 then pure .ok else pure .error
  else pure .error

def ngxIsStunProbe (len : Nat) : Mem ProbeObject NgxInt :=
  if len ≥ 20 then do
    let b ← readByte .packet 0
    if b < 3 then do
      let cookie ← readBytes .packet 4 4
      if cookie = stunMagicCookie then pure .ok else pure .error
    else pure .error
  else pure .error

def ngxIsDtlsProbe (len : Nat) : Mem ProbeObject NgxInt :=
  if len ≥ 13 then do
    let b ← readByte .packet 0
    if b > 19 ∧ b < 64 then pure .ok else pure .error
  else pure .error

section Process

variable (hmacSha1 : List UInt8 → List UInt8 → List UInt8) (alloc : ProbeAlloc → Bool)

/-- The name that goes to the log: 16 bytes and a terminating zero. -/
def probeUsername (src : ProbeObject) (i : Nat) : Mem ProbeObject Unit := do
  ngxMemcpy .username 0 src i probeUsernameLen
  writeByte .username probeUsernameLen 0

/-- The TTL byte counts down; the probe goes no further when it reaches 0. -/
def probeTtl (ttl : UInt8) : Mem ProbeObject NgxInt :=
  if ttl ≤ 1 then do
    writeByte .packet probePrefixLen 0
    pure .ok
  else do
    writeByte .packet probePrefixLen (ttl - 1)
    pure .done

def ngxProcessUdpProbe (len : Nat) : ProbeM := do
  if !(← hasProbePrefix .packet 0) then probeDone
  else if !alloc .username then probeDone
  else do
    let ttl ← readByte .packet probePrefixLen
    let ret ← probeTtl ttl
    let nodeNum ← readByte .packet (probePrefixLen + 1)
    writeByte .packet (probePrefixLen + 1) (nodeNum + 1)
    probeUsername .packet (probePrefixLen + 2)
    ngxReplyProbe .packet len ret

def ngxProcessRtpProbe (len : Nat) : ProbeM := do
  if (← ngxIsRtpProbe len) ≠ .ok then probeDone
  else if !(← hasProbePrefix .packet rtpHeaderSize) then probeDone
  else do
    writeByte .packet (rtpHeaderSize + probePrefixLen) 0xFF
    let nodeNum ← readByte .packet (rtpHeaderSize + probePrefixLen + 1)
    writeByte .packet (rtpHeaderSize + probePrefixLen + 1) (nodeNum + 1)
    let reply ← readBytes .packet 0 len
    -- the reply is out before the name is allocated
    if !alloc .username then pure (some { ret := .done, replies := [reply] })
    else do
      probeUsername .packet (rtpHeaderSize + probePrefixLen + 2)
      pure (some { ret := .ok, replies := [reply] })

/-- The hop fields of a STUN probe, the last two bytes of its transaction id, are changed where they
are: in the received packet. -/
def stunProbeHop (tid : Ptr) : Mem ProbeObject Unit := do
  writeByte tid.object (tid.offset + 10) 0xFF
  let nodeNum ← readByte tid.object (tid.offset + 11)
  writeByte tid.object (tid.offset + 11) (nodeNum + 1)

/-- The answer to a parsed STUN probe: the packet encoded again into a block of the datagram's size. The
block is not checked against `NULL`. -/
def stunProbeReply (packet : StunPacket) (len : Nat) : ProbeM := do
  stunProbeHop packet.transactionId
  if !alloc .reply then pure none
  else do
    let (_, packet) ← ngxStunSerialize hmacSha1 { packet with klass := .successResponse } len
    ngxReplyProbe .reply packet.size .ok

/-- The checks in front of the answer: the outer `none` when the decoder does not come back, the inner
one when the datagram is not a probe. -/
def stunProbeCheck (len : Nat) : Mem ProbeObject (Option (Option StunPacket)) := do
  if (← ngxIsStunProbe len) ≠ .ok then pure (some none)
  else if !alloc .stunPacket then pure (some none)
  else do
    match ← ngxStunParse {} len with
    | none => pure none
    | some (ret, packet) =>
      if ret ≠ .ok then pure (some none)
      else if packet.klass ≠ .request then pure (some none)
      else if !(← hasProbePrefix packet.transactionId.object (packet.transactionId.offset + 4)) then
        pure (some none)
      else pure (some (some packet))

def ngxProcessStunProbe (len : Nat) : ProbeM := do
  match ← stunProbeCheck alloc len with
  | none => pure none
  | some none => probeDone
  | some (some packet) => stunProbeReply hmacSha1 alloc packet len

/-! ### DTLS -/

/-- `struct dtls_record_layer_header`; its sequence number is the object `sequenceNumber`. -/
structure DtlsRecordLayerHeader where
  type : UInt8
  major : UInt8
  minor : UInt8
  epoch : UInt16
  length : UInt16

structure DtlsHandshakeHeader where
  msgType : UInt8
  length : UInt32
  messageSeq : UInt16
  fragmentOffset : UInt32
  fragmentLength : UInt32

/-- `struct dtls_client_hello`; its arrays are the objects `chRandom`, `chSessionId` and
`chDtlsCookie`. -/
structure DtlsClientHello where
  major : UInt8
  minor : UInt8
  sessionIdLen : UInt8 := 0
  dtlsCookieLen : UInt8 := 0
  ciphersuite : UInt16 := 0
  compressionMethod : UInt8 := 0
  extensionLen : UInt16 := 0

/-- `struct dtls_server_hello`; its arrays are the objects `shRandom` and `shSessionId`. -/
structure DtlsServerHello where
  major : UInt8
  minor : UInt8
  sessionIdLen : Nat
  ciphersuite : UInt16
  compressionMethod : UInt8
  extensionLen : UInt16

/-- `handshake` of `enum dtls_content_type`. -/
def dtlsHandshake : UInt8 := 22

/-- `client_hello` and `server_hello` of `enum dtls_handshake_type`. -/
def dtlsClientHello : UInt8 := 1

def dtlsServerHello : UInt8 := 2

/-- `if (n > 0) ngx_memcpy(dst, src + j, n)`. -/
def copyNonempty (dst : ProbeObject) (i : Nat) (src : ProbeObject) (j n : Nat) :
    Mem ProbeObject Unit :=
  if n > 0 then ngxMemcpy dst i src j n else pure ()

/-- The server hello from `base` on; returns its length. -/
def ngxServerHelloSerialize (sh : DtlsServerHello) (base : Nat) : Mem ProbeObject Nat := do
  ngxSet1Byte .packet base sh.major
  ngxSet1Byte .packet (base + 1) sh.minor
  ngxMemcpy .packet (base + 2) .shRandom 0 ssl3RandomSize
  ngxSet1Byte .packet (base + 34) (UInt8.ofNat sh.sessionIdLen)
  copyNonempty .packet (base + 35) .shSessionId 0 sh.sessionIdLen
  let pos := base + 35 + sh.sessionIdLen
  ngxSet2Bytes .packet pos sh.ciphersuite
  ngxSet1Byte .packet (pos + 2) sh.compressionMethod
  ngxSet2Bytes .packet (pos + 3) sh.extensionLen
  pure (35 + sh.sessionIdLen + 5)

/-- The handshake message from `base` on; 0 for every other type than a server hello. -/
def ngxHandshakeSerialize (hs : DtlsHandshakeHeader) (sh : DtlsServerHello) (base : Nat) :
    Mem ProbeObject Nat := do
  ngxSet1Byte .packet base hs.msgType
  ngxSet3Bytes .packet (base + 1) hs.length
  ngxSet2Bytes .packet (base + 4) hs.messageSeq
  ngxSet3Bytes .packet (base + 6) hs.fragmentOffset
  if hs.msgType = dtlsServerHello then do
    let serverHelloLen ← ngxServerHelloSerialize sh (base + 9 + 3)
    ngxSet3Bytes .packet (base + 9) (UInt32.ofNat serverHelloLen)
    ngxSet3Bytes .packet (base + 1) (UInt32.ofNat serverHelloLen)
    pure (9 + 3 + serverHelloLen)
  else pure 0

def ngxRecordLayerSerialize (record : DtlsRecordLayerHeader) (hs : DtlsHandshakeHeader)
    (sh : DtlsServerHello) : Mem ProbeObject Nat := do
  ngxSet1Byte .packet 0 record.type
  ngxSet1Byte .packet 1 record.major
  ngxSet1Byte .packet 2 record.minor
  ngxSet2Bytes .packet 3 record.epoch
  ngxMemcpy .packet 5 .sequenceNumber 0 dtlsRecordLayerSeqNumSize
  if record.type = dtlsHandshake then do
    let handshakeLen ← ngxHandshakeSerialize hs sh (11 + 2)
    ngxSet2Bytes .packet 11 (UInt16.ofNat handshakeLen)
    pure (11 + 2 + handshakeLen)
  else pure 0

/-- The record header behind its type byte. -/
def dtlsReadRecord (type : UInt8) : Mem ProbeObject DtlsRecordLayerHeader := do
  let major ← ngxGet1Byte .packet 1
  let minor ← ngxGet1Byte .packet 2
  let epoch ← ngxGet2Bytes .packet 3
  ngxMemcpy .sequenceNumber 0 .packet 5 dtlsRecordLayerSeqNumSize
  let length ← ngxGet2Bytes .packet 11
  pure { type, major, minor, epoch, length }

def dtlsReadHandshake : Mem ProbeObject DtlsHandshakeHeader := do
  let msgType ← ngxGet1Byte .packet 13
  let length ← ngxGet3Bytes .packet 14
  let messageSeq ← ngxGet2Bytes .packet 17
  let fragmentOffset ← ngxGet3Bytes .packet 19
  let fragmentLength ← ngxGet3Bytes .packet 22
  pure { msgType, length, messageSeq, fragmentOffset, fragmentLength }

/-- The client hello behind its random, from the session id length on. The two length bytes are used
as they come. -/
def dtlsReadClientHello (ch : DtlsClientHello) : Mem ProbeObject DtlsClientHello := do
  let sessionIdLen ← ngxGet1Byte .packet 59
  copyNonempty .chSessionId 0 .packet 60 sessionIdLen.toNat
  let pos := 60 + sessionIdLen.toNat
  let dtlsCookieLen ← ngxGet1Byte .packet pos
  copyNonempty .chDtlsCookie 0 .packet (pos + 1) dtlsCookieLen.toNat
  let pos := pos + 1 + dtlsCookieLen.toNat
  let ciphersuite ← ngxGet2Bytes .packet pos
  let compressionMethod ← ngxGet1Byte .packet (pos + 2)
  let extensionLen ← ngxGet2Bytes .packet (pos + 3)
  pure { ch with sessionIdLen, dtlsCookieLen, ciphersuite, compressionMethod, extensionLen }

/-- The server hello made from the client hello: the random with changed hop fields, the session id
and the cipher suite as they came. -/
def dtlsServerHelloFrom (ch : DtlsClientHello) : Mem ProbeObject DtlsServerHello := do
  ngxMemcpy .shRandom 0 .chRandom 0 ssl3RandomSize
  writeByte .shRandom (8 + probePrefixLen) 0xFF
  let nodeNum ← readByte .chRandom (8 + probePrefixLen + 1)
  writeByte .shRandom (8 + probePrefixLen + 1) (nodeNum + 1)
  ngxMemcpy .shSessionId 0 .chSessionId 0 ch.sessionIdLen.toNat
  pure { major := ch.major, minor := 0xfd, sessionIdLen := ch.sessionIdLen.toNat,
         ciphersuite := ch.ciphersuite, compressionMethod := ch.compressionMethod,
         extensionLen := ch.extensionLen }

/-- Everything behind the prefix check. -/
def dtlsProbeReply (record : DtlsRecordLayerHeader) (hs : DtlsHandshakeHeader)
    (ch : DtlsClientHello) : ProbeM := do
  let ch ← dtlsReadClientHello ch
  let record := { record with minor := 0xfd }
  if !alloc .serverHello then probeDone
  else if !alloc .username then probeDone
  else do
    probeUsername .chRandom (8 + probePrefixLen + 2)
    let sh ← dtlsServerHelloFrom ch
    let pos ← ngxRecordLayerSerialize record { hs with msgType := dtlsServerHello } sh
    if pos > 0 then ngxReplyProbe .packet pos .ok else probeDone

/-- The checks in front of the client hello's variable part: record, handshake header, version and
random, with the prefix in the random. -/
def dtlsProbeCheck (len : Nat) :
    Mem ProbeObject (Option (DtlsRecordLayerHeader × DtlsHandshakeHeader × DtlsClientHello)) := do
  if (← ngxIsDtlsProbe len) ≠ .ok then pure none
  else if !alloc .record then pure none
  else do
    let type ← ngxGet1Byte .packet 0
    if type ≠ dtlsHandshake then pure none
    else do
      let record ← dtlsReadRecord type
      if record.length ≠ 53 then pure none
      else if !alloc .handshakeHeader then pure none
      else do
        let hs ← dtlsReadHandshake
        if hs.fragmentLength ≠ 41 ∨ hs.msgType ≠ dtlsClientHello then pure none
        else if !alloc .clientHello then pure none
        else do
          let major ← ngxGet1Byte .packet 25
          let minor ← ngxGet1Byte .packet 26
          ngxMemcpy .chRandom 0 .packet 27 ssl3RandomSize
          if !(← hasProbePrefix .chRandom 8) then pure none
          else pure (some (record, hs, { major, minor }))

def ngxProcessDtlsProbe (len : Nat) : ProbeM := do
  match ← dtlsProbeCheck alloc len with
  | none => probeDone
  | some (record, hs, ch) => dtlsProbeReply alloc record hs ch

/-! ### Dispatch -/

/-- The `switch` of `ngx_process_probe` on the length of the datagram. -/
def processProbe (len : Nat) : ProbeM :=
  if len = 24 then ngxProcessUdpProbe alloc len
  else if len = 36 then ngxProcessRtpProbe alloc len
  else if len = 40 then ngxProcessStunProbe hmacSha1 alloc len
  else if len = 66 then ngxProcessDtlsProbe alloc len
  else probeDone

/-- What the memory holds when the datagram `d` has arrived: `after` behind it in the receive buffer,
`blocks` in what `ngx_palloc` will return. The structures come from `ngx_pcalloc` and are zero. -/
def probeStore (d : List UInt8) (after : Nat → UInt8) (blocks : ProbeObject → Nat → UInt8) :
    Store ProbeObject :=
  { bytes := fun o => match o with
      | .packet => fun k => if k < d.length then d.getD k 0 else after (k - d.length)
      | .reply => blocks .reply
      | .username => blocks .username
      | _ => fun _ => 0
    trace := [] }

/-- The two places of a connection that can hold a datagram: `c->buffer`, and `c->udp->buffer` where
`c->udp` is set. -/
structure ProbeConnection where
  dgram : Bool
  buffer : Option (List UInt8)
  udp : Option (Option (List UInt8))

/-- The buffer that `ngx_process_probe` looks at. -/
def ProbeConnection.datagram (c : ProbeConnection) : Option (List UInt8) :=
  if c.dgram then c.buffer.or c.udp.join else none

/-- A run of `ngx_process_probe` with the memory it leaves behind; the store is empty where there is
no datagram to look at. -/
def probeRun (c : ProbeConnection) (after : Nat → UInt8) (blocks : ProbeObject → Nat → UInt8) :
    Option ProbeResult × Store ProbeObject :=
  match c.datagram with
  | none => (some { ret := .done }, probeStore [] after blocks)
  | some d => processProbe hmacSha1 alloc d.length (probeStore d after blocks)

/-- The connection behind `ngx_process_probe`: an answered probe is freed and both places are cleared,
everything else stays where it is, as the probe code has left it. -/
def ngxProcessProbe (c : ProbeConnection) (after : Nat → UInt8)
    (blocks : ProbeObject → Nat → UInt8) : Option ProbeResult × ProbeConnection :=
  let (r, s) := probeRun hmacSha1 alloc c after blocks
  let left (d : List UInt8) := bytesAt (s.bytes .packet) 0 d.length
  match r with
  | some { ret := .ok, .. } => (r, { c with buffer := none, udp := c.udp.map fun _ => none })
  | _ =>
    if !c.dgram then (r, c)
    else if c.buffer.isSome then (r, { c with buffer := c.buffer.map left })
    else (r, { c with udp := c.udp.map (·.map left) })

end Process

end NginxDtls
