import NginxDtls.Wire
import NginxDtls.Crc32
import NginxDtls.Core

/-! The STUN codec of `ngx_stream_probe.c`: `ngx_stun_parse` fills a `stun_packet` from a received
message, `ngx_stun_serialize` writes one out. The two are written independently. The encoder adds up
`packet->size`, then places every attribute at its own running position; the decoder walks the
attributes by their length fields. -/

namespace NginxDtls

open Memory

/-- The memory the probe code works on: the receive buffer from `buffer->pos` on, the arrays inside
the structures it allocates, and the blocks it allocates itself. No index of `null` is valid. -/
inductive ProbeObject where
  | null
  | packet
  | stunUsername
  | reply
  | username
  | sequenceNumber
  | chRandom
  | chSessionId
  | chDtlsCookie
  | shRandom
  | shSessionId
  deriving DecidableEq

/-- A pointer into an object. -/
structure Ptr where
  object : ProbeObject
  offset : Nat
  deriving DecidableEq

inductive StunClass where
  | request
  | indication
  | successResponse
  | errorResponse
  deriving DecidableEq, Repr

def StunClass.code : StunClass → UInt16
  | .request => 0
  | .indication => 1
  | .successResponse => 2
  | .errorResponse => 3

/-- The class of a two-bit value. -/
def StunClass.ofCode (c : UInt16) : StunClass :=
  if c = 0 then .request else if c = 1 then .indication
  else if c = 2 then .successResponse else .errorResponse

/-- `BINDING`, the one named method. -/
def stunBinding : UInt16 := 1

inductive StunAttribute where
  | mappedAddress
  | username
  | messageIntegrity
  | errorCode
  | unknownAttributes
  | realm
  | nonce
  | xorMappedAddress
  | priority
  | useCandidate
  | software
  | alternateServer
  | fingerprint
  | iceControlled
  | iceControlling
  | nomination
  deriving DecidableEq, Repr

def StunAttribute.code : StunAttribute → UInt16
  | .mappedAddress => 0x0001
  | .username => 0x0006
  | .messageIntegrity => 0x0008
  | .errorCode => 0x0009
  | .unknownAttributes => 0x000A
  | .realm => 0x0014
  | .nonce => 0x0015
  | .xorMappedAddress => 0x0020
  | .priority => 0x0024
  | .useCandidate => 0x0025
  | .software => 0x8022
  | .alternateServer => 0x8023
  | .fingerprint => 0x8028
  | .iceControlled => 0x8029
  | .iceControlling => 0x802A
  | .nomination => 0xC001

/-- `struct stun_packet`. The bytes of `username` are the object `stunUsername`. -/
structure StunPacket where
  klass : StunClass := .request
  method : UInt16 := 0
  transactionId : Ptr := ⟨.null, 0⟩
  size : Nat := 0
  usernameLen : UInt16 := 0
  priority : UInt32 := 0
  iceControlling : UInt64 := 0
  iceControlled : UInt64 := 0
  hasNomination : Bool := false
  nomination : UInt32 := 0
  hasUseCandidate : Bool := false
  messageIntegrity : Ptr := ⟨.null, 0⟩
  hasFingerprint : Bool := false
  xorMappedAddress : Option Sockaddr := none
  errorCode : UInt16 := 0
  password : List UInt8 := []
  passwordLen : UInt16 := 0

/-- `sizeof(packet->username)`. -/
def stunUsernameSize : Nat := 513

def stunMagicCookie : List UInt8 := [0x21, 0x12, 0xA4, 0x42]

def ngxPadTo4BytesFrom2Bytes (size : UInt16) : UInt16 :=
  if size &&& 0x03 ≠ 0 then (size &&& 0xFFFC) + 4 else size

/-! ### The decoder -/

/-- The locals of the attribute loop next to the packet it fills. -/
structure StunParseState where
  packet : StunPacket
  hasMessageIntegrity : Bool := false
  hasFingerprint : Bool := false
  fingerprintAttrPos : Nat := 0
  fingerprint : UInt32 := 0

/-- The `switch (attr_type)` of the loop for the attribute at `pos`; `none` is `NGX_ERROR`. -/
def stunAttributeCase (st : StunParseState) (attrType attrLength : UInt16) (pos : Nat) :
    Mem ProbeObject (Option StunParseState) :=
  let value := pos + 4
  if attrType = StunAttribute.username.code then
    if attrLength.toNat ≥ stunUsernameSize then pure none
    else do
      ngxMemcpy .stunUsername 0 .packet value attrLength.toNat
      writeByte .stunUsername attrLength.toNat 0
      pure (some { st with packet := { st.packet with usernameLen := attrLength } })
  else if attrType = StunAttribute.priority.code then
    if attrLength ≠ 4 then pure none
    else do
      let v ← ngxGet4Bytes .packet value
      pure (some { st with packet := { st.packet with priority := v } })
  else if attrType = StunAttribute.iceControlling.code then
    if attrLength ≠ 8 then pure none
    else do
      let v ← ngxGet8Bytes .packet value
      pure (some { st with packet := { st.packet with iceControlling := v } })
  else if attrType = StunAttribute.iceControlled.code then
    if attrLength ≠ 8 then pure none
    else do
      let v ← ngxGet8Bytes .packet value
      pure (some { st with packet := { st.packet with iceControlled := v } })
  else if attrType = StunAttribute.useCandidate.code then
    if attrLength ≠ 0 then pure none
    else pure (some { st with packet := { st.packet with hasUseCandidate := true } })
  else if attrType = StunAttribute.nomination.code then
    if attrLength ≠ 4 then pure none
    else do
      let v ← ngxGet4Bytes .packet value
      pure (some { st with packet := { st.packet with hasNomination := true, nomination := v } })
  else if attrType = StunAttribute.messageIntegrity.code then
    if attrLength ≠ 20 then pure none
    else pure (some { st with
      hasMessageIntegrity := true
      packet := { st.packet with messageIntegrity := ⟨.packet, value⟩ } })
  else if attrType = StunAttribute.fingerprint.code then
    if attrLength ≠ 4 then pure none
    else do
      let v ← ngxGet4Bytes .packet value
      pure (some { st with
        hasFingerprint := true
        fingerprintAttrPos := pos
        fingerprint := v
        packet := { st.packet with hasFingerprint := true } })
  else if attrType = StunAttribute.errorCode.code then
    if attrLength < 4 then pure none
    else do
      let errorClass ← ngxGet1Byte .packet (value + 2)
      let errorNumber ← ngxGet1Byte .packet (value + 3)
      pure (some { st with
        packet := { st.packet with errorCode := errorClass.toUInt16 * 100 + errorNumber.toUInt16 } })
  else pure (some st)

/-- How the attribute loop ends: `return NGX_ERROR` inside it, or at a position. -/
inductive StunLoopEnd where
  | error (st : StunParseState)
  | finished (pos : Nat) (st : StunParseState)

/-- The attribute loop; `none` when it has not ended after `fuel` rounds. -/
def stunAttributes (len : Nat) : Nat → Nat → StunParseState → Mem ProbeObject (Option StunLoopEnd)
  | 0, _, _ => pure none
  | fuel + 1, pos, st =>
    if pos + 4 ≤ len then do
      let attrType ← ngxGet2Bytes .packet pos
      let attrLength ← ngxGet2Bytes .packet (pos + 2)
      if pos + 4 + attrLength.toNat > len then pure (some (.error st))
      else if st.hasFingerprint then pure (some (.error st))
      else if st.hasMessageIntegrity ∧ attrType ≠ StunAttribute.fingerprint.code then
        pure (some (.error st))
      else do
        match ← stunAttributeCase st attrType attrLength pos with
        | none => pure (some (.error st))
        | some st' =>
          -- the next position is rounded up in 16 bits
          stunAttributes len fuel
            (ngxPadTo4BytesFrom2Bytes (UInt16.ofNat (pos + 4 + attrLength.toNat))).toNat st'
    else pure (some (.finished pos st))

/-- The checks behind the attribute loop: the position and the fingerprint. -/
def stunParseTail (len pos : Nat) (st : StunParseState) : Mem ProbeObject (NgxInt × StunPacket) :=
  if pos ≠ len then pure (.error, st.packet)
  else if st.hasFingerprint then do
    let crc ← ngxGetCrc32 ProbeObject.packet st.fingerprintAttrPos
    if st.fingerprint ≠ crc ^^^ 0x5354554e then pure (.error, st.packet)
    else pure (.ok, st.packet)
  else pure (.ok, st.packet)

/-- `ngx_stun_parse` on the `len` bytes of the received packet; `none` when the attribute loop does
not end. -/
def ngxStunParse (packet : StunPacket) (len : Nat) :
    Mem ProbeObject (Option (NgxInt × StunPacket)) := do
  let msgType ← ngxGet2Bytes .packet 0
  let msgLength ← ngxGet2Bytes .packet 2
  -- `len - 20` is computed in `size_t`
  if msgLength.toNat ≠ (len + 2 ^ 64 - 20) % 2 ^ 64 ∨ msgLength &&& 0x03 ≠ 0 then
    pure (some (.error, packet))
  else do
    let msgMethod : UInt16 := (msgType &&& 0x000f) ||| ((msgType &&& 0x00e0) >>> (1 : UInt16))
      ||| ((msgType &&& 0x3E00) >>> (2 : UInt16))
    let b0 ← readByte .packet 0
    let b1 ← readByte .packet 1
    let msgClass : UInt16 :=
      ((b0.toUInt16 &&& 0x01) <<< (1 : UInt16)) ||| ((b1.toUInt16 &&& 0x10) >>> (4 : UInt16))
    let packet := { packet with
      klass := StunClass.ofCode msgClass
      method := msgMethod
      transactionId := ⟨.packet, 8⟩ }
    match ← stunAttributes len (len + 1) 20 { packet := packet } with
    | none => pure none
    | some (.error st) => pure (some (.error, st.packet))
    | some (.finished pos st) => do
      let r ← stunParseTail len pos st
      pure (some r)

/-- The packet with which the decoder enters the attribute loop. -/
def stunParsedHeader (p : StunPacket) (f : Nat → UInt8) : StunPacket :=
  { p with
    klass := StunClass.ofCode ((((f 0).toUInt16 &&& 0x01) <<< (1 : UInt16))
      ||| (((f 1).toUInt16 &&& 0x10) >>> (4 : UInt16)))
    method := (be16 f 0 &&& 0x000f) ||| ((be16 f 0 &&& 0x00e0) >>> (1 : UInt16))
      ||| ((be16 f 0 &&& 0x3E00) >>> (2 : UInt16))
    transactionId := ⟨.packet, 8⟩ }

/-! ### The encoder -/

/-- `add_xor_mapped_address` with the length of the attribute's value; other families than the two
handled by the switch clear the flag. -/
def stunXorMappedLen (packet : StunPacket) : Option Nat :=
  if packet.method = stunBinding ∧ packet.klass = .successResponse then
    match packet.xorMappedAddress with
    | some (.inet _ _) => some 8
    | some (.inet6 _ _ _ _) => some 20
    | _ => none
  else none

def stunAddErrorCode (packet : StunPacket) : Bool :=
  packet.errorCode ≠ 0 ∧ packet.klass = .errorResponse

def stunAddMessageIntegrity (packet : StunPacket) : Bool :=
  packet.klass ≠ .errorResponse ∧ packet.passwordLen ≠ 0

/-- `add_fingerprint`, which is 0 throughout. -/
def stunAddFingerprint : Bool := false

/-- The total that the encoder stores in `packet->size`. The username is counted without its
padding. -/
def stunSerializedSize (packet : StunPacket) : Nat :=
  20 + (if 0 < packet.usernameLen then 4 + packet.usernameLen.toNat else 0)
    + (if packet.priority ≠ 0 then 4 + 4 else 0)
    + (if packet.iceControlling ≠ 0 then 4 + 8 else 0)
    + (if packet.iceControlled ≠ 0 then 4 + 8 else 0)
    + (if packet.hasUseCandidate then 4 else 0)
    + (match stunXorMappedLen packet with | some n => 4 + n | none => 0)
    + (if stunAddErrorCode packet then 4 + 4 else 0)
    + (if stunAddMessageIntegrity packet then 4 + 20 else 0)
    + (if stunAddFingerprint then 4 + 4 else 0)

/-- Class and method bits merged into the type field. -/
def stunTypeField (packet : StunPacket) : UInt16 :=
  ((packet.method &&& 0x0f80) <<< (2 : UInt16)) ||| ((packet.method &&& 0x0070) <<< (1 : UInt16))
    ||| (packet.method &&& 0x000f) ||| ((packet.klass.code &&& 0x02) <<< (7 : UInt16))
    ||| ((packet.klass.code &&& 0x01) <<< (4 : UInt16))

/-- The two header words of an attribute at `pos`. -/
def stunAttributeHeader (pos : Nat) (attr : StunAttribute) (length : UInt16) :
    Mem ProbeObject Unit := do
  ngxSet2Bytes .reply pos attr.code
  ngxSet2Bytes .reply (pos + 2) length

/-- `username_padded_len`. -/
def stunUsernamePaddedLen (packet : StunPacket) : UInt16 :=
  if 0 < packet.usernameLen then ngxPadTo4BytesFrom2Bytes packet.usernameLen else 0

def stunAddUsername (packet : StunPacket) (pos : Nat) : Mem ProbeObject Nat :=
  if stunUsernamePaddedLen packet ≠ 0 then do
    stunAttributeHeader pos .username packet.usernameLen
    ngxMemcpy .reply (pos + 4) .stunUsername 0 packet.usernameLen.toNat
    pure (pos + 4 + (stunUsernamePaddedLen packet).toNat)
  else pure pos

def stunAddPriority (packet : StunPacket) (pos : Nat) : Mem ProbeObject Nat :=
  if packet.priority ≠ 0 then do
    stunAttributeHeader pos .priority 4
    ngxSet4Bytes .reply (pos + 4) packet.priority
    pure (pos + 4 + 4)
  else pure pos

/-- ICE-CONTROLLING and ICE-CONTROLLED: an eight-byte value, left out when zero. -/
def stunAddWord (attr : StunAttribute) (value : UInt64) (pos : Nat) : Mem ProbeObject Nat :=
  if value ≠ 0 then do
    stunAttributeHeader pos attr 8
    ngxSet8Bytes .reply (pos + 4) value
    pure (pos + 4 + 8)
  else pure pos

def stunAddUseCandidate (packet : StunPacket) (pos : Nat) : Mem ProbeObject Nat :=
  if packet.hasUseCandidate then do
    stunAttributeHeader pos .useCandidate 0
    pure (pos + 4)
  else pure pos

/-- Port and address of XOR-MAPPED-ADDRESS: the port under the first two cookie bytes, the address
under the cookie and, for IPv6, the transaction id. -/
def stunXorMappedValue (addr : Sockaddr) (transactionId : List UInt8) : List UInt8 :=
  match addr with
  | .inet port a =>
    [0, 0x01] ++ List.zipWith (· ^^^ ·) (split16 port) stunMagicCookie
      ++ List.zipWith (· ^^^ ·) a.toList stunMagicCookie
  | .inet6 port _ a _ =>
    [0, 0x02] ++ List.zipWith (· ^^^ ·) (split16 port) stunMagicCookie
      ++ List.zipWith (· ^^^ ·) a.toList (stunMagicCookie ++ transactionId)
  | .unix _ => []

def stunAddXorMappedAddress (packet : StunPacket) (pos : Nat) : Mem ProbeObject Nat :=
  match stunXorMappedLen packet, packet.xorMappedAddress with
  | some n, some addr => do
    stunAttributeHeader pos .xorMappedAddress (UInt16.ofNat n)
    let transactionId ← readBytes packet.transactionId.object packet.transactionId.offset 12
    writeBytes .reply (pos + 4) (stunXorMappedValue addr transactionId)
    pure (pos + 4 + n)
  | _, _ => pure pos

/-- `code_class` and `code_number`, both in eight bits. -/
def stunErrorBytes (errorCode : UInt16) : UInt8 × UInt8 :=
  let codeClass := (errorCode / 100).toUInt8
  (codeClass, errorCode.toUInt8 - codeClass * 100)

def stunAddErrorCodeAttr (packet : StunPacket) (pos : Nat) : Mem ProbeObject Nat :=
  if stunAddErrorCode packet then do
    stunAttributeHeader pos .errorCode 4
    ngxSet2Bytes .reply (pos + 4) 0
    ngxSet1Byte .reply (pos + 6) (stunErrorBytes packet.errorCode).1
    ngxSet1Byte .reply (pos + 7) (stunErrorBytes packet.errorCode).2
    pure (pos + 4 + 4)
  else pure pos

/-- MESSAGE-INTEGRITY over everything written so far; `hmacSha1 key data` is `ngx_get_hmac_sha1`. -/
def stunAddMessageIntegrityAttr (hmacSha1 : List UInt8 → List UInt8 → List UInt8)
    (packet : StunPacket) (pos : Nat) : Mem ProbeObject (Nat × StunPacket) :=
  if stunAddMessageIntegrity packet then do
    let data ← readBytes .reply 0 pos
    stunAttributeHeader pos .messageIntegrity 20
    writeBytes .reply (pos + 4) (hmacSha1 (packet.password.take packet.passwordLen.toNat) data)
    pure (pos + 4 + 20, { packet with messageIntegrity := ⟨.reply, pos + 4⟩ })
  else pure (pos, { packet with messageIntegrity := ⟨.null, 0⟩ })

/-- The twenty header bytes: type, length, magic cookie, transaction id. -/
def stunHeader (packet : StunPacket) : Mem ProbeObject Unit := do
  ngxSet2Bytes .reply 0 (stunTypeField packet)
  ngxSet2Bytes .reply 2 (UInt16.ofNat packet.size - 20)
  writeBytes .reply 4 stunMagicCookie
  ngxMemcpy .reply 8 packet.transactionId.object packet.transactionId.offset 12

/-- The attributes from `pos` on; `add_fingerprint` is 0, so MESSAGE-INTEGRITY comes last and the
length field is not patched. -/
def stunBody (hmacSha1 : List UInt8 → List UInt8 → List UInt8) (packet : StunPacket) (pos : Nat) :
    Mem ProbeObject (Nat × StunPacket) := do
  let pos ← stunAddUsername packet pos
  let pos ← stunAddPriority packet pos
  let pos ← stunAddWord .iceControlling packet.iceControlling pos
  let pos ← stunAddWord .iceControlled packet.iceControlled pos
  let pos ← stunAddUseCandidate packet pos
  let pos ← stunAddXorMappedAddress packet pos
  let pos ← stunAddErrorCodeAttr packet pos
  stunAddMessageIntegrityAttr hmacSha1 packet pos

/-- `ngx_stun_serialize` into the reply block of `len` bytes. -/
def ngxStunSerialize (hmacSha1 : List UInt8 → List UInt8 → List UInt8) (packet : StunPacket)
    (len : Nat) : Mem ProbeObject (NgxInt × StunPacket) :=
  let packet := { packet with size := stunSerializedSize packet }
  if packet.size > len then pure (.abort, packet)
  else do
    stunHeader packet
    let packet := { packet with transactionId := ⟨.reply, 8⟩ }
    let (_, packet) ← stunBody hmacSha1 packet 20
    pure (.ok, { packet with hasFingerprint := false })

end NginxDtls
