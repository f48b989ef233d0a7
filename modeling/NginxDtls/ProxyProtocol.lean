import NginxDtls.InetParse
import NginxDtls.Reading

/-! The headers of the PROXY protocol (`ngx_proxy_protocol.c`): the text of version 1 is written and read, the bytes of
version 2 are read. Positions count from the first byte of the buffer. Memory is always available. -/

namespace NginxDtls.ProxyProtocol

open Reading

/-- `CR` -/
def cr : UInt8 := 13

/-- `LF` -/
def lf : UInt8 := 10

def space : UInt8 := 32

/-- `NGX_PROXY_PROTOCOL_MAX_HEADER` -/
def maxHeader : ℕ := 107

/-- `NGX_SOCKADDR_STRLEN` -/
def ngxSockaddrStrLen : ℕ := 113

/-- `\r\n\r\n\0\r\nQUIT\n` -/
def signature : List UInt8 := [13, 10, 13, 10, 0, 13, 10, 81, 85, 73, 84, 10]

/-- `PROXY ` -/
def proxyText : List UInt8 := [80, 82, 79, 88, 89, 32]

/-- `UNKNOWN` -/
def unknownText : List UInt8 := [85, 78, 75, 78, 79, 87, 78]

/-- `TCP` -/
def tcpText : List UInt8 := [84, 67, 80]

/-- `ngx_proxy_protocol_t` -/
structure NgxProxyProtocol where
  srcAddr : List UInt8
  dstAddr : List UInt8
  srcPort : ℕ
  dstPort : ℕ
  deriving DecidableEq

/-! ### Version 1 -/

/-- A character of an address. -/
def isAddrChar (ch : UInt8) : Bool :=
  ch = colon ∨ ch = dot ∨ (97 ≤ ch ∧ ch ≤ 102) ∨ (65 ≤ ch ∧ ch ≤ 70) ∨ (48 ≤ ch ∧ ch ≤ 57)

/-- The loop of `ngx_proxy_protocol_read_addr` and that of `ngx_proxy_protocol_read_port`, with the bytes that are left: a
separator is looked for, and other bytes must be allowed. -/
def scanTo (last : ℕ) (sep : UInt8) (allowed : UInt8 → Bool) : ℕ → ℕ → Read (Option ℕ)
  | 0, _ => pure none
  | fuel + 1, p =>
    if p = last then pure none
    else do
      let ch ← byteAt p
      if ch = sep then pure (some (p + 1))
      else if allowed ch then scanTo last sep allowed fuel (p + 1)
      else pure none

/-- `ngx_proxy_protocol_read_addr`: where it has stopped, and the address. -/
def ngxProxyProtocolReadAddr (last pos : ℕ) : Read (Option (ℕ × List UInt8)) :=
  andThen (scanTo last space isAddrChar (last - pos) pos) fun p => do
    let addr ← bytesFrom pos (p - pos - 1)
    return some (p, addr)

/-- The port of a text, when it is one. -/
def portOf (line : List UInt8) : Option ℕ := (ngxAtoi line).filter (· ≤ 65535)

/-- `ngx_proxy_protocol_read_port`: where it has stopped, and the port. -/
def ngxProxyProtocolReadPort (sep : UInt8) (last pos : ℕ) : Read (Option (ℕ × ℕ)) :=
  andThen (scanTo last sep (fun _ => true) (last - pos) pos) fun p => do
    let line ← bytesFrom pos (p - pos - 1)
    return (portOf line).map fun n => (p, n)

/-- The line feed at the end of the header. -/
def readLf (last p : ℕ) : Read (Option (ℕ × Unit)) :=
  if p = last then pure none
  else do
    let ch ← byteAt p
    return if ch ≠ lf then none else some (p + 1, ())

/-- The addresses and ports of the header, from `p` on. -/
def readTcp (last p : ℕ) : Read (Option (ℕ × Option NgxProxyProtocol)) :=
  andThen (ngxProxyProtocolReadAddr last p) fun src =>
    andThen (ngxProxyProtocolReadAddr last src.1) fun dst =>
      andThen (ngxProxyProtocolReadPort space last dst.1) fun srcPort =>
        andThen (ngxProxyProtocolReadPort cr last srcPort.1) fun dstPort =>
          andThen (readLf last dstPort.1) fun stop =>
            pure (some (stop.1, some ⟨src.2, dst.2, srcPort.2, dstPort.2⟩))

/-- The loop behind `skip`. -/
def skipLoop (last : ℕ) : ℕ → ℕ → Read (Option (ℕ × Option NgxProxyProtocol))
  | 0, _ => pure none
  | fuel + 1, p =>
    if p + 1 < last then do
      let c ← byteAt p
      if c = cr then do
        let c' ← byteAt (p + 1)
        if c' = lf then pure (some (p + 2, none)) else skipLoop last fuel (p + 1)
      else skipLoop last fuel (p + 1)
    else pure none

/-- What follows `PROXY `, when it is not `UNKNOWN`. -/
def readProtocol (last : ℕ) : Read (Option (ℕ × Option NgxProxyProtocol)) :=
  if last < 6 + 5 then pure none
  else do
    let t ← bytesFrom 6 5
    if t = tcpText ++ [52, space] ∨ t = tcpText ++ [54, space] then readTcp last 11 else pure none

/-- A header of version 1. -/
def readV1 (last : ℕ) : Read (Option (ℕ × Option NgxProxyProtocol)) :=
  if last < 8 then pure none
  else do
    let t ← bytesFrom 0 6
    if t = proxyText then
      if 6 + 7 ≤ last then do
        let u ← bytesFrom 6 7
        if u = unknownText then skipLoop last (last - 13) 13 else readProtocol last
      else readProtocol last
    else pure none

/-! ### Version 2 -/

/-- `ngx_proxy_protocol_parse_uint16` -/
def parseUint16 (t : List UInt8) (i : ℕ) : ℕ := (t.getD i 0).toNat * 256 + (t.getD (i + 1) 0).toNat

/-- The addresses of a header, each of `n` bytes, with what makes a socket address of them. -/
def addrs (sockaddr : List UInt8 → Sockaddr) (n : ℕ) (t : List UInt8) : NgxProxyProtocol where
  srcAddr := ngxSockNtop (sockaddr (t.take n)) ngxSockaddrStrLen false
  dstAddr := ngxSockNtop (sockaddr ((t.drop n).take n)) ngxSockaddrStrLen false
  srcPort := parseUint16 t (2 * n)
  dstPort := parseUint16 t (2 * n + 2)

def sockaddrIn (t : List UInt8) : Sockaddr := .inet 0 (Vector.ofFn fun i => t.getD i 0)

def sockaddrIn6 (t : List UInt8) : Sockaddr := .inet6 0 0 (Vector.ofFn fun i => t.getD i 0) 0

/-- `ngx_proxy_protocol_v2_read` -/
def ngxProxyProtocolV2Read (last : ℕ) : Read (Option (ℕ × Option NgxProxyProtocol)) := do
  let versionCommand ← byteAt 12
  if versionCommand >>> 4 ≠ 2 then return none
  else
    let len ← bytesFrom 14 2
    let stop := 16 + parseUint16 len 0
    if last < stop then return none
    else if versionCommand &&& 0x0f ≠ 1 then return some (stop, none)
    else
      let familyTransport ← byteAt 13
      if familyTransport &&& 0x0f ≠ 1 then return some (stop, none)
      else if familyTransport >>> 4 = 1 then
        if stop < 16 + 12 then return none
        else
          let t ← bytesFrom 16 12
          return some (stop, some (addrs sockaddrIn 4 t))
      else if familyTransport >>> 4 = 2 then
        if stop < 16 + 36 then return none
        else
          let t ← bytesFrom 16 36
          return some (stop, some (addrs sockaddrIn6 16 t))
      else return some (stop, none)

/-- `ngx_proxy_protocol_read`: the position behind the header, and what the connection has got. -/
def ngxProxyProtocolRead (last : ℕ) : Read (Option (ℕ × Option NgxProxyProtocol)) :=
  if 16 ≤ last then do
    let t ← bytesFrom 0 12
    if t = signature then ngxProxyProtocolV2Read last else readV1 last
  else readV1 last

/-! ### Writing -/

/-- `ngx_proxy_protocol_write` into a buffer of `room` bytes, with the address that
`ngx_connection_local_sockaddr` has found. -/
def ngxProxyProtocolWrite (sockaddr : Sockaddr) (localSockaddr : Option Sockaddr) (room : ℕ) : Option (List UInt8) :=
  if room < maxHeader then none
  else
    localSockaddr.map fun local' =>
      let write (start : List UInt8) : List UInt8 :=
        let buf := start ++ ngxSockNtop sockaddr (room - start.length) false
        let buf := buf ++ [space]
        let buf := buf ++ ngxSockNtop local' (room - buf.length) false
        buf ++ ([space] ++ sprintfUd (ngxInetGetPort sockaddr).toNat ++ [space] ++
          sprintfUd (ngxInetGetPort local').toNat ++ [cr, lf]).take (room - buf.length)
      match sockaddr with
      | .inet _ _ => write (proxyText ++ tcpText ++ [52, space])
      | .inet6 _ _ _ _ => write (proxyText ++ tcpText ++ [54, space])
      | .unix _ => proxyText ++ unknownText ++ [cr, lf]

end NginxDtls.ProxyProtocol
