import NginxDtls.Run

/-! The data path of the stream proxy: `ngx_stream_proxy_process` with the chains it keeps in `u->upstream_out`,
`u->upstream_busy` and `u->free`, the write filter with its own copy of the chain, and the two send chains under it.

Buffers are objects of a heap, named by numbers, so that two lists can hold the same buffer; a chain is the list of
its buffers. What a buffer refers to is a range of an area of memory: one of the two proxy buffers, `c->buffer`, or
the header of the PROXY protocol. What the system calls answer is part of an event. Either direction is named by
`from_upstream`, as in the source. -/

namespace NginxDtls

inductive SockType
  | stream
  | dgram
  deriving DecidableEq, Repr

/-- What the pointers of a buffer point into. -/
inductive Area
  | proxy (fromUpstream : Bool)
  | preread
  | header
  deriving DecidableEq, Repr

/-- `ngx_buf_t`. No buffer of the proxy is in a file; `tag` says that the buffer has the tag of the proxy module. -/
structure NgxBuf where
  area : Area := .preread
  start : ℕ := 0
  pos : ℕ := 0
  last : ℕ := 0
  temporary : Bool := false
  flush : Bool := false
  lastBuf : Bool := false
  tag : Bool := false
  deriving DecidableEq, Repr

def ngxBufSize (b : NgxBuf) : ℕ := if b.temporary then b.last - b.pos else 0

def ngxBufSpecial (b : NgxBuf) : Bool := (b.flush || b.lastBuf) && !b.temporary

abbrev Areas := Area → ℕ → UInt8

def Areas.store (mem : Areas) (a : Area) (off : ℕ) (bs : List UInt8) : Areas :=
  Function.update mem a fun i => if off ≤ i then (bs[i - off]?).getD (mem a i) else mem a i

def Areas.slice (mem : Areas) (a : Area) (pos last : ℕ) : List UInt8 := (List.range' pos (last - pos)).map (mem a)

/-- What a buffer contributes to the output. -/
def NgxBuf.bytes (mem : Areas) (b : NgxBuf) : List UInt8 :=
  if b.temporary then mem.slice b.area b.pos b.last else []

/-- One direction of a session: the proxy buffer up to `b->last`, the chains, and the state of the two connections
that the direction uses. The three lists of byte strings record what came in as datagrams, what `recv` returned, and
what was sent. -/
structure Flow where
  last : ℕ := 0
  out : List ℕ := []
  busy : List ℕ := []
  /-- The chain of the write filter. -/
  saved : List ℕ := []
  /-- `NGX_STREAM_WRITE_BUFFERED` of the destination. -/
  buffered : Bool := false
  /-- The source has met the end of its stream, or an error. -/
  ended : Bool := false
  arrived : List (List UInt8) := []
  received : List (List UInt8) := []
  sent : List (List UInt8) := []
  deriving DecidableEq, Repr

structure RelayConf where
  type : SockType
  /-- `pscf->buffer_size`. -/
  bufferSize : ℕ
  /-- `c->shared`. -/
  shared : Bool
  /-- The header that `proxy_protocol` puts before the data; `ngx_proxy_protocol_write` never writes an empty one. -/
  proxyProtocol : Option (List UInt8)
  header_ne : proxyProtocol ≠ some [] := by decide

structure Relay where
  bufs : ℕ → NgxBuf
  fresh : ℕ
  free : List ℕ
  mem : Areas
  /-- `c->buffer`. -/
  buffer : Option NgxBuf
  connected : Bool
  flows : Bool → Flow
  finalized : Bool

def Relay.setFlow (r : Relay) (d : Bool) (f : Flow → Flow) : Relay :=
  { r with flows := Function.update r.flows d (f (r.flows d)) }

@[simp]
theorem Relay.setFlow_flows (r : Relay) (d : Bool) (f : Flow → Flow) : (r.setFlow d f).flows d = f (r.flows d) :=
  Function.update_self ..

@[simp]
theorem Relay.setFlow_flows_of_ne (r : Relay) {d d' : Bool} (h : d' ≠ d) (f : Flow → Flow) :
    (r.setFlow d f).flows d' = r.flows d' := Function.update_of_ne h ..

def Relay.setBuf (r : Relay) (i : ℕ) (b : NgxBuf) : Relay := { r with bufs := Function.update r.bufs i b }

/-! ### Chains -/

def ngxChainGetFreeBuf (r : Relay) : ℕ × Relay :=
  match r.free with
  | i :: rest => (i, { r with free := rest })
  | [] => (r.fresh, { r with fresh := r.fresh + 1, bufs := Function.update r.bufs r.fresh {} })

/-- What a walk over a chain leaves: the buffers, the free list, and the rest of the chain. -/
structure Walked where
  bufs : ℕ → NgxBuf
  free : List ℕ
  chain : List ℕ

/-- The loop of `ngx_chain_update_chains`. -/
def releaseBusy : (ℕ → NgxBuf) → List ℕ → List ℕ → Walked
  | bufs, free, [] => { bufs, free, chain := [] }
  | bufs, free, i :: busy =>
    if (bufs i).tag = false then releaseBusy bufs free busy
    else if ngxBufSize (bufs i) ≠ 0 then { bufs, free, chain := i :: busy }
    else
      let empty := { bufs i with pos := (bufs i).start, last := (bufs i).start }
      releaseBusy (Function.update bufs i empty) (i :: free) busy

def ngxChainUpdateChains (r : Relay) (d : Bool) : Relay :=
  let f := r.flows d
  let res := releaseBusy r.bufs r.free (f.busy ++ f.out)
  ({ r with bufs := res.bufs, free := res.free } : Relay).setFlow d fun f => { f with busy := res.chain, out := [] }

/-- The buffers after a send, and the rest of the chain. -/
def ngxChainUpdateSent : (ℕ → NgxBuf) → List ℕ → ℕ → (ℕ → NgxBuf) × List ℕ
  | bufs, [], _ => (bufs, [])
  | bufs, i :: rest, sent =>
    if ngxBufSpecial (bufs i) then ngxChainUpdateSent bufs rest sent
    else if sent = 0 then (bufs, i :: rest)
    else if ngxBufSize (bufs i) ≤ sent then
      let done := if (bufs i).temporary then { bufs i with pos := (bufs i).last } else bufs i
      ngxChainUpdateSent (Function.update bufs i done) rest (sent - ngxBufSize (bufs i))
    else
      let part := if (bufs i).temporary then { bufs i with pos := (bufs i).pos + sent } else bufs i
      (Function.update bufs i part, i :: rest)

/-! ### Sending -/

/-- How a call of `send_chain` goes: the event was not ready, the destination took so much (bytes of a stream,
datagrams otherwise) before it would have blocked, or the call failed. -/
inductive Send
  | notReady
  | accepted (n : ℕ)
  | error
  deriving DecidableEq, Repr

/-- What `send_chain` leaves. -/
structure Sending where
  bufs : ℕ → NgxBuf
  chain : List ℕ
  sent : List (List UInt8)

/-- `ngx_writev_chain`, or `ngx_linux_sendfile_chain` for a chain without files. -/
def ngxWritevChain (mem : Areas) (bufs : ℕ → NgxBuf) (chain : List ℕ) (n : ℕ) : Sending where
  bufs := (ngxChainUpdateSent bufs chain n).1
  chain := (ngxChainUpdateSent bufs chain n).2
  sent := [(chain.flatMap fun i => (bufs i).bytes mem).take n]

/-- The next datagram of the chain, up to the first buffer with a flush; `none` without one. -/
def ngxUdpOutputChainToIovec (mem : Areas) (bufs : ℕ → NgxBuf) : List ℕ → Option (List UInt8)
  | [] => none
  | i :: rest =>
    if (bufs i).flush || (bufs i).lastBuf then some ((bufs i).bytes mem)
    else (ngxUdpOutputChainToIovec mem bufs rest).map ((bufs i).bytes mem ++ ·)

/-- The loop of `ngx_udp_unix_sendmsg_chain`, for as many datagrams as the socket takes. -/
def ngxUdpUnixSendmsgChain (mem : Areas) : ℕ → (ℕ → NgxBuf) → List ℕ → Sending
  | 0, bufs, chain => { bufs, chain, sent := [] }
  | n + 1, bufs, chain =>
    match ngxUdpOutputChainToIovec mem bufs chain with
    | none => { bufs, chain, sent := [] }
    | some datagram =>
      let res := ngxChainUpdateSent bufs chain datagram.length
      let rest := ngxUdpUnixSendmsgChain mem n res.1 res.2
      { rest with sent := datagram :: rest.sent }

/-- `c->send_chain`; `none` for `NGX_CHAIN_ERROR`. -/
def sendChain (type : SockType) (mem : Areas) (bufs : ℕ → NgxBuf) (chain : List ℕ) : Send → Option Sending
  | .notReady => some { bufs, chain, sent := [] }
  | .accepted n =>
    match type with
    | .stream => some (ngxWritevChain mem bufs chain n)
    | .dgram => some (ngxUdpUnixSendmsgChain mem n bufs chain)
  | .error => none

/-- The chain that the write filter looks at: what it has saved, then what the proxy hands to it. -/
def Flow.queue (f : Flow) : List ℕ := f.saved ++ f.out

/-- `ngx_stream_write_filter`; `none` for `NGX_ERROR`. A failed call ends the session, and what it may have sent
before is not recorded. -/
def ngxStreamWriteFilter (conf : RelayConf) (r : Relay) (d : Bool) (send : Send) : Option Relay :=
  let chain := (r.flows d).queue
  if chain.any fun i => ngxBufSize (r.bufs i) = 0 ∧ ngxBufSpecial (r.bufs i) = false then none
  else if (chain.map fun i => ngxBufSize (r.bufs i)).sum = 0 ∧
      ¬ (conf.type = .dgram ∧ chain.any fun i => (r.bufs i).flush) then
    if chain.any fun i => (r.bufs i).lastBuf || (r.bufs i).flush then
      some (r.setFlow d fun f => { f with saved := [], buffered := false })
    else none
  else
    match sendChain conf.type r.mem r.bufs chain send with
    | none => none
    | some res =>
      if res.chain ≠ [] ∧ d = true ∧ conf.shared = true then none
      else
        some (({ r with bufs := res.bufs } : Relay).setFlow d fun f =>
          { f with saved := res.chain, buffered := !res.chain.isEmpty, sent := f.sent ++ res.sent })

/-! ### `ngx_stream_proxy_process` -/

/-- What `recv` finds: nothing, the bytes or the datagram that wait, or an error. -/
inductive Recv
  | again
  | data (bs : List UInt8)
  | error
  deriving DecidableEq, Repr

/-- The part of the loop that writes. -/
def processWrite (conf : RelayConf) (r : Relay) (d : Bool) (send : Send) : Relay :=
  let f := r.flows d
  if (d || r.connected) && (f.out ≠ [] || f.busy ≠ [] || f.buffered) then
    match ngxStreamWriteFilter conf r d send with
    | none => { r with finalized := true }
    | some r =>
      let r := ngxChainUpdateChains r d
      if (r.flows d).busy = [] then r.setFlow d fun f => { f with last := 0 } else r
  else r

/-- The bytes that `recv` returned go to the end of the proxy buffer, and a buffer for them to the end of `out`. -/
def queueReceived (r : Relay) (d : Bool) (bs : List UInt8) (eof : Bool) : Relay :=
  let last := (r.flows d).last
  let i := (ngxChainGetFreeBuf r).1
  let r := (ngxChainGetFreeBuf r).2
  ({ r with mem := r.mem.store (.proxy d) last bs } : Relay).setBuf i
      { area := .proxy d, start := (r.bufs i).start, pos := last, last := last + bs.length,
        temporary := !bs.isEmpty, flush := true, lastBuf := eof, tag := true }
    |>.setFlow d fun f =>
      { f with
        out := f.out ++ [i]
        last := last + bs.length
        ended := f.ended || eof
        received := f.received ++ [bs] }

/-- A datagram has come in. -/
def Relay.arrive (r : Relay) (conf : RelayConf) (d : Bool) : Recv → Relay
  | .data bs => if conf.type = .dgram then r.setFlow d fun f => { f with arrived := f.arrived ++ [bs] } else r
  | _ => r

/-- The part of the loop that reads, and whether the loop goes on. A datagram that does not fit is cut by
`ngx_udp_shared_recv`; one that meets a full buffer is dropped. Of a stream, what does not fit stays in the socket. -/
def processRead (conf : RelayConf) (r : Relay) (d : Bool) (recv : Recv) : Relay × Bool :=
  let f := r.flows d
  let size := conf.bufferSize - f.last
  let r := r.arrive conf d recv
  if size = 0 then (r, false)
  else
    match recv with
    | .again => (r, false)
    | .error => (queueReceived r d [] true, true)
    | .data bs =>
      let got := if f.ended then [] else bs.take size
      (queueReceived r d got (f.ended || (conf.type = .stream && got.isEmpty)), true)

/-- The loop, after its first write. -/
def processLoop (conf : RelayConf) (d : Bool) : List (Recv × Send) → Relay → Relay
  | [], r => r
  | (recv, send) :: rounds, r =>
    if r.finalized then r
    else
      let res := processRead conf r d recv
      if res.2 then processLoop conf d rounds (processWrite conf res.1 d send) else res.1

def ngxStreamProxyProcess (conf : RelayConf) (r : Relay) (d doWrite : Bool) (send : Send)
    (rounds : List (Recv × Send)) : Relay :=
  processLoop conf d rounds (if doWrite then processWrite conf r d send else r)

/-! ### Events -/

/-- The buffer that goes to the head of `u->upstream_out`. -/
def Relay.prepend (r : Relay) (b : NgxBuf) : Relay :=
  let i := (ngxChainGetFreeBuf r).1
  let r := (ngxChainGetFreeBuf r).2
  (r.setBuf i b).setFlow false fun f => { f with out := i :: f.out }

/-- What the client sent before the proxy came in. -/
def Relay.addPreread (r : Relay) : Relay :=
  match r.buffer with
  | none => r
  | some b =>
    if b.pos ≤ b.last then r.prepend { b with tag := true, temporary := b.pos ≠ b.last, flush := true } else r

/-- The header of the PROXY protocol, which `ngx_proxy_protocol_write` puts in memory of its own. -/
def Relay.addHeader (r : Relay) (conf : RelayConf) : Relay :=
  match conf.proxyProtocol with
  | none => r
  | some bs =>
    r.prepend { area := .header, pos := 0, last := bs.length, temporary := true, flush := false, lastBuf := false,
                tag := true }

/-- `ngx_stream_proxy_init_upstream` for an upstream without SSL. -/
def ngxStreamProxyInitUpstreamPlain (conf : RelayConf) (r : Relay) (send : Send) (rounds : List (Recv × Send)) :
    Relay :=
  ngxStreamProxyProcess conf { (r.addPreread.addHeader conf) with connected := true } false true send rounds

inductive RelayEvent
  /-- A read or write event of one of the two connections. -/
  | process (fromUpstream doWrite : Bool) (send : Send) (rounds : List (Recv × Send))
  /-- The upstream is connected. -/
  | connect (send : Send) (rounds : List (Recv × Send))
  /-- The upstream failed and the next one is tried. -/
  | nextUpstream
  | finalize

def Relay.step (conf : RelayConf) (r : Relay) (e : RelayEvent) : Relay :=
  if r.finalized then r
  else
    match e with
    | .process d doWrite send rounds =>
      if d && !r.connected then r else ngxStreamProxyProcess conf r d doWrite send rounds
    | .connect send rounds => if r.connected then r else ngxStreamProxyInitUpstreamPlain conf r send rounds
    | .nextUpstream =>
      if r.connected || conf.type = .stream then r else r.setFlow false fun f => { f with out := [] }
    | .finalize => { r with finalized := true }

/-- A session as `ngx_stream_proxy_handler` leaves it, with what `c->buffer` holds and how far it has been read. -/
def Relay.start (conf : RelayConf) (buffer : Option (List UInt8 × ℕ)) : Relay where
  bufs _ := {}
  fresh := 0
  free := []
  mem
    | .proxy _, _ => 0
    | .preread, i => ((buffer.map Prod.fst).getD [])[i]?.getD 0
    | .header, i => (conf.proxyProtocol.getD [])[i]?.getD 0
  buffer := buffer.map fun b => { area := .preread, pos := b.2, last := b.1.length, temporary := true }
  connected := false
  flows _ := {}
  finalized := false

end NginxDtls
