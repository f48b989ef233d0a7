import NginxDtls.Core

/-! `ngx_udp_unix_sendmsg_chain` on any chain of buffers in memory and special buffers. The chain is cut into datagrams
at the buffers with `flush` or `last_buf`, but it is advanced by `ngx_chain_update_sent`, which counts bytes and skips
special buffers: a datagram without a buffer in memory goes with the one before it, and an empty buffer in memory at
the end of a datagram stays. -/

namespace NginxDtls.Sendmsg

/-- `ngx_buf_t`, by the addresses that its pointers hold. No buffer is in a file. -/
structure Buf where
  pos : ℕ := 0
  last : ℕ := 0
  inMemory : Bool := false
  flush : Bool := false
  lastBuf : Bool := false
  sync : Bool := false
  deriving DecidableEq, Repr

def ngxBufSpecial (b : Buf) : Bool := (b.flush || b.lastBuf || b.sync) && !b.inMemory

def ngxBufSize (b : Buf) : ℕ := if b.inMemory then b.last - b.pos else 0

/-- The buffer ends a datagram. -/
def Buf.ends (b : Buf) : Bool := b.flush || b.lastBuf

def ngxChainUpdateSent : List Buf → ℕ → List Buf
  | [], _ => []
  | b :: rest, sent =>
    if ngxBufSpecial b then ngxChainUpdateSent rest sent
    else if sent = 0 then b :: rest
    else if ngxBufSize b ≤ sent then ngxChainUpdateSent rest (sent - ngxBufSize b)
    else (if b.inMemory then { b with pos := b.pos + sent } else b) :: rest

/-- `NGX_IOVS_PREALLOCATE`. -/
def ngxIovsPreallocate : ℕ := 64

/-- What `ngx_udp_output_chain_to_iovec` makes of a chain: `NGX_CHAIN_ERROR`, no datagram because no buffer ends one,
or the parts of a datagram, each by its base and length with the latest one first, and the rest of the chain. -/
inductive Iovec where
  | error
  | unflushed
  | datagram (iovs : List (ℕ × ℕ)) (rest : List Buf)
  deriving DecidableEq, Repr

/-- The loop of `ngx_udp_output_chain_to_iovec`. A buffer that goes on where the one before it ended extends its
part. -/
def ngxUdpOutputChainToIovec : List Buf → List (ℕ × ℕ) → Iovec
  | [], _ => .unflushed
  | b :: rest, iovs =>
    if ngxBufSpecial b then
      if b.ends then .datagram iovs rest else ngxUdpOutputChainToIovec rest iovs
    else if !b.inMemory then .error
    else
      let size := b.last - b.pos
      match iovs with
      | (base, len) :: more =>
        if base + len = b.pos then
          if b.ends then .datagram ((base, len + size) :: more) rest
          else ngxUdpOutputChainToIovec rest ((base, len + size) :: more)
        else if iovs.length = ngxIovsPreallocate then .error
        else if b.ends then .datagram ((b.pos, size) :: iovs) rest
        else ngxUdpOutputChainToIovec rest ((b.pos, size) :: iovs)
      | [] =>
        if b.ends then .datagram [(b.pos, size)] rest else ngxUdpOutputChainToIovec rest [(b.pos, size)]

/-- The bytes from `base` on. -/
def bytesAt (mem : ℕ → UInt8) (base len : ℕ) : List UInt8 := (List.range' base len).map mem

/-- What `sendmsg` gets: the parts in their order. -/
def payload (mem : ℕ → UInt8) (iovs : List (ℕ × ℕ)) : List UInt8 :=
  iovs.reverse.flatMap fun iov => bytesAt mem iov.1 iov.2

/-- `NGX_MAX_SIZE_T_VALUE` without a page. -/
def ngxSendLimit : ℕ := 9223372036854775807 - 4096

/-- The loop of `ngx_udp_unix_sendmsg_chain`, when the socket takes `n` datagrams before it would block: the payloads
that were sent and the rest of the chain, or `none` for `NGX_CHAIN_ERROR`. -/
def sendmsgLoop (mem : ℕ → UInt8) (limit : ℕ) : ℕ → ℕ → List Buf → Option (List (List UInt8) × List Buf)
  | 0, _, chain =>
    match ngxUdpOutputChainToIovec chain [] with
    | .error => none
    | _ => some ([], chain)
  | n + 1, send, chain =>
    match ngxUdpOutputChainToIovec chain [] with
    | .error => none
    | .unflushed => some ([], chain)
    | .datagram iovs _ =>
      let size := (iovs.map Prod.snd).sum
      let rest := ngxChainUpdateSent chain size
      if limit ≤ send + size ∨ rest = [] then some ([payload mem iovs], rest)
      else (sendmsgLoop mem limit n (send + size) rest).map fun res => (payload mem iovs :: res.1, res.2)

/-- A call: whether the write event is ready, the limit, and how many datagrams the socket takes. -/
structure Call where
  ready : Bool
  limit : ℕ
  takes : ℕ
  deriving DecidableEq, Repr

/-- `ngx_udp_unix_sendmsg_chain`. -/
def ngxUdpUnixSendmsgChain (mem : ℕ → UInt8) (call : Call) (chain : List Buf) :
    Option (List (List UInt8) × List Buf) :=
  if !call.ready then some ([], chain)
  else
    let limit := if call.limit = 0 ∨ ngxSendLimit < call.limit then ngxSendLimit else call.limit
    sendmsgLoop mem limit call.takes 0 chain

/-- One call after the other, each with the chain that the last one returned: all the payloads, and the chain. -/
def sendmsgCalls (mem : ℕ → UInt8) : List Call → List Buf → Option (List (List UInt8) × List Buf)
  | [], chain => some ([], chain)
  | call :: calls, chain => do
    let res ← ngxUdpUnixSendmsgChain mem call chain
    let more ← sendmsgCalls mem calls res.2
    some (res.1 ++ more.1, more.2)

/-! ### Datagrams -/

/-- A buffer of a chain that the function is given: in memory, or special. -/
def Buf.Known (b : Buf) : Prop := (b.inMemory = true ∧ b.pos ≤ b.last) ∨ ngxBufSpecial b = true

/-- The buffers of a datagram: a run without an end, and the buffer that ends it, with not too many in memory. -/
structure Datagram where
  run : List Buf
  last : Buf
  run_open : ∀ b ∈ run, b.ends = false
  last_ends : last.ends = true
  known : ∀ b ∈ run ++ [last], b.Known
  parts : (run ++ [last]).countP (·.inMemory) ≤ ngxIovsPreallocate

namespace Datagram

def bufs (D : Datagram) : List Buf := D.run ++ [D.last]

def bytes (mem : ℕ → UInt8) (D : Datagram) : List UInt8 :=
  D.bufs.flatMap fun b => bytesAt mem b.pos (ngxBufSize b)

end Datagram

/-- A chain of datagrams. -/
def chainOf (Ds : List Datagram) : List Buf := Ds.flatMap Datagram.bufs

/-- Whatever the socket takes in whatever calls: no call fails, what was sent are the first datagrams of the chain, all
of them when nothing is left, and as long as something is left a socket that takes a datagram is sent one. -/
structure Delivers (mem : ℕ → UInt8) (Ds : List Datagram) (calls : List Call) : Prop where
  runs : ∃ res, sendmsgCalls mem calls (chainOf Ds) = some res
  first : ∀ res, sendmsgCalls mem calls (chainOf Ds) = some res → res.1 <+: Ds.map (Datagram.bytes mem)
  all : ∀ res, sendmsgCalls mem calls (chainOf Ds) = some res → res.2 = [] → res.1 = Ds.map (Datagram.bytes mem)
  progress : ∀ res, sendmsgCalls mem calls (chainOf Ds) = some res → res.2 ≠ [] →
    ∀ call : Call, call.ready = true → call.takes ≠ 0 →
      ∃ sent, ngxUdpUnixSendmsgChain mem call res.2 = some sent ∧ sent.1 ≠ []

/-- The last buffer in memory of a datagram, if there is one, has data. -/
def Datagram.Clean (D : Datagram) : Prop :=
  ∀ b, (D.bufs.filter (·.inMemory)).getLast? = some b → ngxBufSize b ≠ 0

/-- Every datagram but the first has a buffer in memory, and in each the last one has data. -/
def Sendable (Ds : List Datagram) : Prop :=
  (∀ D ∈ Ds, D.Clean) ∧ ∀ D ∈ Ds.tail, ∃ b ∈ D.bufs, b.inMemory = true

end NginxDtls.Sendmsg
