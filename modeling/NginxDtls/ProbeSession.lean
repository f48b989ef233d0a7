import NginxDtls.Probe
import NginxDtls.Run

/-! A UDP session on a listener with `probe_enable` and without SSL: the phases of `ngx_stream_core_module.c` up to the
probe phase, where an answered probe leaves the session waiting for the next datagram, and the proxy behind it, with
its timers and buffers as far as the client side uses them. The build is that of the README, without a handler in the
preread phase, and `accept_mutex` is off. -/

namespace NginxDtls.ProbeSession

/-! ### Configuration -/

/-- What a handler of a phase before the probe phase returns for the client: `NGX_OK`, `NGX_DECLINED`, or anything that
ends the session. -/
inductive Verdict where
  | ok
  | declined
  | rejected
  deriving DecidableEq, Repr

structure Conf where
  /-- The phases before the probe phase. -/
  before : List (List Verdict)
  probeEnable : Bool
  /-- `proxy_ssl` -/
  ssl : Bool
  /-- The address of the upstream is resolved for the session. -/
  resolve : Bool
  /-- What `proxy_protocol` puts in front of the first datagram. -/
  header : List UInt8
  bufferSize : ℕ
  requests : ℕ
  /-- `none` is `NGX_MAX_INT32_VALUE`. -/
  responses : Option ℕ

/-! ### State -/

inductive Life where
  | fresh
  | live
  | closed
  deriving DecidableEq, Repr

inductive Stage where
  | resolving
  | handshaking
  | connected
  deriving DecidableEq, Repr

/-- `ngx_stream_upstream_t`, with the fill of `downstream_buf`, everything that has been put into `upstream_out` in the
order of the chain, the header that waits for its datagram, and whether something has not been sent yet. -/
structure Upstream where
  stage : Stage
  requests : ℕ
  responses : ℕ
  last : ℕ
  header : List UInt8
  queue : List (List UInt8)
  pending : Bool
  deriving DecidableEq, Repr

/-- A reply of the probe code, or a datagram queued to the upstream. -/
inductive Act where
  | reply (d : List UInt8)
  | forward (d : List UInt8)
  deriving DecidableEq, Repr

/-- The session and its connection. `conn.udp` is `c->udp`, which goes with the entry in the table of UDP connections;
the flags are those of `c->read`, whose handler is the one of the proxy as soon as there is an upstream. -/
structure Session where
  life : Life
  conn : ProbeConnection
  ready : Bool
  posted : Bool
  timerSet : Bool
  timedout : Bool
  phaseHandler : ℕ
  upstream : Option Upstream
  log : List Act

/-- `ngx_stream_finalize_session`, by which the timer goes and the table forgets the connection. -/
def Session.finalize (s : Session) : Session :=
  { s with
    life := .closed
    conn := { s.conn with udp := none }
    ready := false
    posted := false
    timerSet := false }

/-- How a write to the upstream goes: everything is sent, something stays, or the session ends. -/
inductive Sent where
  | all
  | again
  | error
  deriving DecidableEq, Repr

/-- What a call meets: the memory that the probe code sees, whether the connection is accepted, whether the proxy gets
its memory, a peer and a connection to it, and its writes. -/
structure Env where
  alloc : ProbeAlloc → Bool
  after : ℕ → UInt8
  blocks : ProbeObject → ℕ → UInt8
  accepted : Bool
  proxied : Bool
  first : Sent
  second : Sent

/-! ### The proxy -/

/-- The writing part of `ngx_stream_proxy_process`; `none` ends the session. -/
def processWrite (u : Upstream) (sent : Sent) : Option Upstream :=
  if u.stage = .connected ∧ u.pending then
    match sent with
    | .all => some { u with pending := false, last := 0 }
    | .again => some u
    | .error => none
  else some u

def ngxStreamProxyTestFinalize (conf : Conf) (s : Session) (u : Upstream) : Session :=
  let s := { s with upstream := some u }
  if conf.requests ≠ 0 ∧ u.requests < conf.requests then s
  else
    let s := if conf.requests ≠ 0 then { s with conn := { s.conn with udp := none } } else s
    match conf.responses with
    | none => s
    | some responses =>
      if u.responses < responses * u.requests then s
      else if u.stage ≠ .connected ∨ u.pending then s
      else s.finalize

/-- A received datagram goes to the end of `upstream_out`. -/
def Upstream.queueReceived (u : Upstream) (d : List UInt8) : Upstream :=
  { u with
    queue := u.queue ++ [u.header ++ d]
    header := []
    pending := true
    requests := u.requests + 1
    last := u.last + d.length }

/-- `ngx_stream_proxy_process` for data of the client, with `ngx_udp_shared_recv` in it, which finds at most one
datagram. -/
def ngxStreamProxyProcess (conf : Conf) (env : Env) (s : Session) (u : Upstream) (doWrite : Bool) : Session :=
  match if doWrite then processWrite u env.first else some u with
  | none => Session.finalize { s with upstream := some u }
  | some u =>
    let size := conf.bufferSize - u.last
    match if 0 < size ∧ s.ready then s.conn.udp.join else none with
    | none => ngxStreamProxyTestFinalize conf s u
    | some d =>
      let s := { s with
        conn := { s.conn with udp := s.conn.udp.map fun _ => none }
        ready := false
        log := s.log ++ [.forward (u.header ++ d.take size)] }
      let u := u.queueReceived (d.take size)
      match processWrite u env.second with
      | none => Session.finalize { s with upstream := some u }
      | some u => ngxStreamProxyTestFinalize conf s u

/-- The header is queued last and goes to the front, without a flush, and so into the datagram that follows it. -/
def Upstream.addHeader (u : Upstream) (header : List UInt8) : Upstream :=
  match u.queue with
  | [] => { u with header := header }
  | d :: queue => { u with queue := (header ++ d) :: queue }

/-- `ngx_stream_proxy_init_upstream` behind the handshake, if there is one. -/
def ngxStreamProxyInitUpstream (conf : Conf) (env : Env) (s : Session) (u : Upstream) : Session :=
  let preread := s.conn.buffer.toList
  let u := { u with queue := preread ++ u.queue, pending := u.pending || s.conn.buffer.isSome }
  let s := { s with log := s.log ++ preread.map fun d => .forward (conf.header ++ d) }
  ngxStreamProxyProcess conf env s { u.addHeader conf.header with stage := .connected } true

/-- `ngx_stream_proxy_connect` with a peer that is found. A handshake over DTLS does not end in the call that starts
it. -/
def ngxStreamProxyConnect (conf : Conf) (env : Env) (s : Session) (u : Upstream) : Session :=
  if conf.ssl then { s with upstream := some { u with stage := .handshaking } }
  else ngxStreamProxyInitUpstream conf env s u

/-- The upstream that `ngx_stream_proxy_handler` sets up, which counts a first request at once. -/
def Upstream.start : Upstream where
  stage := .resolving
  requests := 1
  responses := 0
  last := 0
  header := []
  queue := []
  pending := false

def ngxStreamProxyHandler (conf : Conf) (env : Env) (s : Session) : Session :=
  if env.proxied then
    let s := { s with posted := s.posted || s.ready }
    if conf.resolve then { s with upstream := some .start } else ngxStreamProxyConnect conf env s .start
  else Session.finalize { s with upstream := some .start }

/-- `ngx_stream_proxy_downstream_handler` for an event of `c->read`. -/
def ngxStreamProxyDownstreamHandler (conf : Conf) (env : Env) (s : Session) (u : Upstream) : Session :=
  if s.timedout then Session.finalize { s with timedout := false } else ngxStreamProxyProcess conf env s u false

/-! ### Phases -/

inductive StreamHandler where
  | verdict (v : Verdict)
  | probe
  | ssl

/-- `ngx_stream_phase_handler_t`; without a handler it is that of the content phase. -/
structure PhaseHandler where
  handler : Option StreamHandler
  next : ℕ

/-- The entries from number `n` on; within a phase they stand in reverse order. -/
def ngxStreamInitPhaseHandlers (n : ℕ) : List (List StreamHandler) → List PhaseHandler
  | [] => [⟨none, 0⟩]
  | handlers :: phases =>
    handlers.reverse.map (fun handler => ⟨some handler, n + handlers.length⟩) ++
      ngxStreamInitPhaseHandlers (n + handlers.length) phases

/-- `cmcf->phase_engine`. -/
def Conf.phaseEngine (conf : Conf) : List PhaseHandler :=
  ngxStreamInitPhaseHandlers 0 (conf.before.map (·.map .verdict) ++ [[.probe], [.ssl]])

inductive Returned where
  | ok
  | declined
  | done
  | rejected
  deriving DecidableEq, Repr

def Verdict.returned : Verdict → Returned
  | .ok => .ok
  | .declined => .declined
  | .rejected => .rejected

section Handlers

variable (hmacSha1 : List UInt8 → List UInt8 → List UInt8)

/-- `ngx_stream_probe_handler`. Where `ngx_process_probe` does not come back, there is no session any more. -/
def ngxStreamProbeHandler (conf : Conf) (env : Env) (s : Session) : Returned × Session :=
  if s.timedout then (.done, s.finalize)
  else if conf.probeEnable then
    let res := ngxProcessProbe hmacSha1 env.alloc s.conn env.after env.blocks
    let replies := (res.1.elim [] ProbeResult.replies).map Act.reply
    let s := { s with conn := res.2, log := s.log ++ replies }
    match res.1 with
    | none => (.done, s.finalize)
    | some r => if r.ret = .ok then (.done, { s with timerSet := true }) else (.ok, s)
  else (.ok, s)

/-- A handler of a phase; that of the SSL phase has nothing to do here. -/
def StreamHandler.run (conf : Conf) (env : Env) (s : Session) : StreamHandler → Returned × Session
  | .verdict v => (v.returned, s)
  | .probe => ngxStreamProbeHandler hmacSha1 conf env s
  | .ssl => (.ok, s)

/-- `ngx_stream_core_run_phases` with the checkers of the phases. -/
def ngxStreamCoreRunPhases (conf : Conf) (env : Env) : ℕ → Session → Session
  | 0, s => s
  | fuel + 1, s =>
    match conf.phaseEngine[s.phaseHandler]? with
    | none => s
    | some ⟨none, _⟩ => ngxStreamProxyHandler conf env s
    | some ⟨some handler, next⟩ =>
      let res := handler.run hmacSha1 conf env s
      match res.1 with
      | .ok => ngxStreamCoreRunPhases conf env fuel { res.2 with phaseHandler := next }
      | .declined => ngxStreamCoreRunPhases conf env fuel { res.2 with phaseHandler := res.2.phaseHandler + 1 }
      | .done => res.2
      | .rejected => res.2.finalize

/-- `c->read->handler`. -/
def readHandler (conf : Conf) (env : Env) (s : Session) : Session :=
  match s.upstream with
  | none => ngxStreamCoreRunPhases hmacSha1 conf env conf.phaseEngine.length s
  | some u => ngxStreamProxyDownstreamHandler conf env s u

/-! ### Events -/

/-- A datagram of the client, the timer of `c->read` expires, the posted event of `c->read` is run, the address of the
upstream is there, the handshake is done, the upstream failed and the next one is tried, the upstream can be written
to, datagrams of the upstream have been passed on, or the session ends for a reason of its own. -/
inductive Event where
  | datagram (d : List UInt8) (env : Env)
  | expired (env : Env)
  | posted (env : Env)
  | resolved (env : Env)
  | handshaked (env : Env)
  | nextUpstream (env : Env)
  | writable (env : Env)
  | response (n : ℕ)
  | finalize

/-- `ngx_event_recvmsg` for the client of the session. A session that the table has forgotten gets no more datagrams;
they open another one. -/
def ngxEventRecvmsg (conf : Conf) (s : Session) (d : List UInt8) (env : Env) : Session :=
  match s.life with
  | .fresh =>
    if env.accepted then
      readHandler hmacSha1 conf env { s with life := .live, conn := ⟨true, some d, some none⟩ }
    else s.finalize
  | .live =>
    if s.conn.udp.isSome then
      let s := readHandler hmacSha1 conf env { s with conn := { s.conn with udp := some (some d) }, ready := true }
      { s with conn := { s.conn with udp := s.conn.udp.map fun _ => none }, ready := false }
    else s
  | .closed => s

/-- An event of a session with an upstream. -/
def upstreamEvent (conf : Conf) (s : Session) (u : Upstream) : Event → Session
  | .resolved env =>
    if u.stage ≠ .resolving then s
    else if env.proxied then ngxStreamProxyConnect conf env s u
    else s.finalize
  | .handshaked env =>
    if u.stage ≠ .handshaking then s
    else if env.proxied then
      -- `ngx_stream_proxy_ssl_handshake` sets up `downstream_buf` once more
      ngxStreamProxyInitUpstream conf env s (if conf.requests ≠ 0 then { u with last := 0 } else u)
    else s.finalize
  | .nextUpstream env =>
    if u.stage = .connected then s
    else if env.proxied then ngxStreamProxyConnect conf env s { u with queue := [], pending := false }
    else s.finalize
  | .writable env => if u.stage = .connected then ngxStreamProxyProcess conf env s u true else s
  | .response n =>
    if u.stage = .connected then ngxStreamProxyTestFinalize conf s { u with responses := u.responses + n } else s
  | _ => s

def step (conf : Conf) (s : Session) : Event → Session
  | .datagram d env => ngxEventRecvmsg hmacSha1 conf s d env
  | .expired env =>
    if s.life = .live ∧ s.timerSet then readHandler hmacSha1 conf env { s with timerSet := false, timedout := true }
    else s
  | .posted env =>
    if s.life = .live ∧ s.posted then readHandler hmacSha1 conf env { s with posted := false } else s
  | .finalize => if s.life = .live then s.finalize else s
  | event => if s.life = .live then s.upstream.elim s fun u => upstreamEvent conf s u event else s

end Handlers

/-- A session that is not accepted yet. -/
def start : Session where
  life := .fresh
  conn := ⟨true, none, none⟩
  ready := false
  posted := false
  timerSet := false
  timedout := false
  phaseHandler := 0
  upstream := none
  log := []

end NginxDtls.ProbeSession
