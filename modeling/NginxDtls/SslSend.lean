import NginxDtls.Run

/-! `ngx_ssl_send_chain` of `ngx_event_openssl.c`: the output chain is copied into a buffer of the
connection, and the buffer goes to `ngx_ssl_write`. On a datagram connection the copy loop stops after one
buffer, so that a record carries one datagram. What survives a call is the unsent part of the buffer and
the chain that is returned. -/

namespace NginxDtls

/-- A buffer of the output chain: the bytes from `pos` to `last` and the flags that are read. -/
structure ChainBuf where
  data : List UInt8
  inMemory : Bool
  flush : Bool
  lastBuf : Bool
  sync : Bool
  deriving DecidableEq

/-- `ngx_buf_special`. -/
def ChainBuf.special (b : ChainBuf) : Bool := (b.flush || b.lastBuf || b.sync) && !b.inMemory

/-- A datagram as the stream proxy queues it. -/
def ChainBuf.datagram (d : List UInt8) : ChainBuf :=
  { data := d, inMemory := true, flush := true, lastBuf := false, sync := false }

/-- `c->ssl->buf`: the bytes from `start` to `last`, the offset of `pos` and the flag `flush`. -/
structure SslBuf where
  data : List UInt8 := []
  pos : Nat := 0
  flush : Bool := false
  deriving DecidableEq

/-- `last - pos` bytes wait to be written. -/
def SslBuf.pending (b : SslBuf) : List UInt8 := b.data.drop b.pos

/-- What `ngx_ssl_write` returns: all of the size, less than it, `NGX_AGAIN` or `NGX_ERROR`. -/
inductive SslWrite where
  | whole
  | part (n : Nat)
  | again
  | error
  deriving DecidableEq

structure SslConnection where
  /-- `c->type == SOCK_DGRAM` -/
  dgram : Bool
  /-- `c->ssl->buffer` -/
  buffer : Bool
  bufferSize : Nat
  pagesize : Nat
  /-- `c->ssl->buf`, absent before the first call -/
  buf : Option SslBuf := none
  /-- `c->buffered & NGX_SSL_BUFFERED` -/
  buffered : Bool := false
  deriving DecidableEq

/-- What a call leaves behind. The chain is absent for `NGX_CHAIN_ERROR`, and `writes` records the payloads
of the successful calls of `ngx_ssl_write`. -/
structure SslSent where
  conn : SslConnection
  chain : Option (List ChainBuf)
  writes : List (List UInt8)
  deriving DecidableEq

def ngxMaxInt32Value : Nat := 2147483647

/-- The limit of a call; zero asks for the largest one. -/
def sslLimit (pagesize limit : Nat) : Nat :=
  if limit = 0 ∨ limit > ngxMaxInt32Value - pagesize then ngxMaxInt32Value - pagesize else limit

/-- The locals of the outer loop. -/
structure SslLoop where
  chain : List ChainBuf
  buf : SslBuf
  send : Nat
  flush : Bool

/-- The inner loop: copy the chain into the buffer. -/
def sslCopy (c : SslConnection) (limit : Nat) : List ChainBuf → SslBuf → Nat → Bool → SslLoop
  | [], buf, send, flush => ⟨[], buf, send, flush⟩
  | b :: rest, buf, send, flush =>
    if buf.data.length < c.bufferSize ∧ send < limit then
      let flush := flush || b.lastBuf || b.flush
      if b.special then sslCopy c limit rest buf send flush
      else
        let size := min (min b.data.length (c.bufferSize - buf.data.length)) (limit - send)
        let buf := { buf with data := buf.data ++ b.data.take size }
        let send := send + size
        if size = b.data.length then
          if c.dgram then ⟨rest, buf, send, flush⟩ else sslCopy c limit rest buf send flush
        else
          -- what is left of `b` stays in front: the buffer is full or the limit is reached
          ⟨{ b with data := b.data.drop size } :: rest, buf, send, flush⟩
    else ⟨b :: rest, buf, send, flush⟩

/-- The end of a call behind the outer loop. -/
def sslFinish (c : SslConnection) (chain : List ChainBuf) (buf : SslBuf) (flush : Bool) : SslSent :=
  { conn := { c with buf := some { buf with flush := flush }, buffered := buf.pos < buf.data.length }
    chain := some chain, writes := [] }

/-- The outer loop. Every round that goes on has used up one outcome of `ngx_ssl_write`; behind the last
listed outcome the socket is not writable. -/
def sslLoop (c : SslConnection) (limit : Nat) (outcomes : List SslWrite) (st : SslLoop) : SslSent :=
  let r := sslCopy c limit st.chain st.buf st.send st.flush
  if !r.flush ∧ r.send < limit ∧ r.buf.data.length < c.bufferSize then
    sslFinish c r.chain r.buf r.flush
  else if r.buf.data.length - r.buf.pos = 0 then
    { conn := { c with buf := some { r.buf with flush := false }, buffered := false }
      chain := some r.chain, writes := [] }
  else
    match outcomes with
    | [] => sslFinish c r.chain r.buf r.flush
    | .again :: _ => sslFinish c r.chain r.buf r.flush
    | .error :: _ => { conn := { c with buf := some r.buf }, chain := none, writes := [] }
    | .part n :: _ =>
      let buf := { r.buf with pos := r.buf.pos + n }
      { sslFinish c r.chain buf r.flush with writes := [r.buf.pending.take n] }
    | .whole :: outcomes =>
      let buf := { r.buf with data := [], pos := 0 }
      let sent :=
        if r.chain = [] ∨ limit ≤ r.send then sslFinish c r.chain buf false
        else sslLoop c limit outcomes ⟨r.chain, buf, r.send, false⟩
      { sent with writes := r.buf.pending :: sent.writes }

/-- A connection without a buffer hands every buffer of the chain to `ngx_ssl_write`. -/
def sslSendUnbuffered (c : SslConnection) : List SslWrite → List ChainBuf → SslSent
  | [], chain => { conn := c, chain := some (chain.dropWhile (·.special)), writes := [] }
  | o :: outcomes, chain =>
    match chain.dropWhile (·.special) with
    | [] => { conn := c, chain := some [], writes := [] }
    | b :: rest =>
      match o with
      | .again => { conn := c, chain := some (b :: rest), writes := [] }
      | .error => { conn := c, chain := none, writes := [] }
      | .part n =>
        let chain := if n = b.data.length then rest else { b with data := b.data.drop n } :: rest
        let sent := sslSendUnbuffered c outcomes chain
        { sent with writes := b.data.take n :: sent.writes }
      | .whole =>
        let sent := sslSendUnbuffered c outcomes rest
        { sent with writes := b.data :: sent.writes }

/-- `ngx_ssl_send_chain`; `alloc` is the outcome of the allocation of the buffer. -/
def ngxSslSendChain (c : SslConnection) (alloc : Bool) (chain : List ChainBuf) (limit : Nat)
    (outcomes : List SslWrite) : SslSent :=
  if !c.buffer then sslSendUnbuffered c outcomes chain
  else if c.buf = none ∧ !alloc then { conn := c, chain := none, writes := [] }
  else
    let buf := c.buf.getD {}
    let flush := if chain = [] then true else buf.flush
    sslLoop c (sslLimit c.pagesize limit) outcomes ⟨chain, buf, buf.data.length - buf.pos, flush⟩

end NginxDtls
