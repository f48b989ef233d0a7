import NginxDtls.UpstreamWeights

/-! The life of a proxied session at its upstream (`ngx_stream_proxy_module.c`): the session selects a peer and
connects to it, with a handshake when the upstream is reached over TLS or DTLS, passes data until it is finalized, and
on a failure frees the peer and goes on to the next one. A step is one call of one session; what the call depends on
outside of the load balancer (sockets, handshakes, clients, timers, memory) comes with the event. Between the calls of
one event of the source any calls of other sessions may stand, which the source does not even allow. -/

namespace NginxDtls

open Run

/-! ### Calls of the load balancer -/

/-- What a session asked of the load balancer. With a selection comes whether at that time no primary peer could be
selected by this session. -/
inductive PeerCall where
  | get (peer : Option (Tier × ℕ)) (exhausted : Bool)
  | free (peer : Option (Tier × ℕ))
  deriving DecidableEq

/-- The peers that a session has selected, in this order. -/
def selections (calls : List PeerCall) : List (Tier × ℕ) :=
  calls.filterMap fun
    | .get peer _ => peer
    | .free _ => none

/-- The peer that a session holds after a call. -/
def heldAfter (held : Option (Tier × ℕ)) : PeerCall → Option (Tier × ℕ)
  | .get (some peer) _ => some peer
  | .get none _ => held
  | .free _ => none

/-- The peer of the last successful get without a free after it. -/
def heldPeer (calls : List PeerCall) : Option (Tier × ℕ) := calls.foldl heldAfter none

/-- A get is made only without a peer, a free only with one and of this one. -/
def Paired : Option (Tier × ℕ) → List PeerCall → Prop
  | _, [] => True
  | none, .get peer _ :: calls => Paired peer calls
  | some peer, .free peer' :: calls => peer' = some peer ∧ Paired none calls
  | _, _ => False

/-- No primary peer can be selected by a session with these selections: each was selected already or is
unavailable. -/
def noneEligible (now : ℤ) (u : Upstream) (calls : List PeerCall) : Bool :=
  (List.range (u.list .primary).number).all fun i =>
    (selections calls).contains (.primary, i) || ((u.list .primary).peer i).unavailable now

/-! ### A session -/

/-- The configuration: the method of the upstream with the points of a consistent hash, and the directives of the
proxy module. -/
structure ProxyConf where
  method : Method
  points : List ChashPoint
  stream : Bool
  ssl : Bool
  proxyProtocol : Bool
  nextUpstream : Bool
  nextUpstreamTries : ℕ

/-- The function of a session that is called next, or the handler that waits for an event. -/
inductive ProxyCall where
  | handler
  | connect
  | connectHandler
  | initUpstream
  | sslInitConnection
  | sslHandshake
  | process
  | nextUpstream
  | finalize
  | finalized
  deriving DecidableEq

/-- What the calls read and write of a session. `sockaddr` and `connection` tell whether these fields of `u->peer`
are set, and `ssl` whether that connection has one. -/
structure ProxySession where
  call : ProxyCall
  data : PeerData
  tries : ℕ
  sockaddr : Bool
  connection : Bool
  ssl : Bool
  proxyProtocol : Bool
  calls : List PeerCall

def ProxySession.start : ProxySession where
  call := .handler
  data := ⟨⟨.primary, none, []⟩, [], 0, 0, 0⟩
  tries := 0
  sockaddr := false
  connection := false
  ssl := false
  proxyProtocol := false
  calls := []

/-- `peer.tries` of a new session, with the limit of `proxy_next_upstream_tries`. -/
def limitTries (conf : ProxyConf) (tries : ℕ) : ℕ :=
  if conf.nextUpstreamTries ≠ 0 ∧ conf.nextUpstreamTries < tries then conf.nextUpstreamTries else tries

/-- `ngx_stream_proxy_handler`, up to the call that it ends with. It may fail before `peer.init` or there. -/
def ngxStreamProxyHandler (conf : ProxyConf) (ok : Bool) (key : List UInt8) (u : Upstream) (s : ProxySession) :
    ProxySession :=
  if ok then
    let init := peerInit conf.method conf.points u key
    { s with call := .connect, data := init.1, tries := limitTries conf init.2 }
  else
    { s with call := .finalize }

/-- What happens in `ngx_stream_proxy_connect` besides the selection: there is no memory for the state of the
attempt, or `ngx_event_connect_peer` fails, is refused, is in progress or is connected. -/
inductive ConnectResult where
  | stateFailed
  | error
  | declined
  | again
  | ok
  deriving DecidableEq

/-- What a session does next when it has a peer. -/
def ConnectResult.call : ConnectResult → ProxyCall
  | .declined => .nextUpstream
  | .again => .connectHandler
  | .ok => .initUpstream
  | _ => .finalize

/-- The selection clears `u->peer.connection`; a new connection has no TLS state. -/
def ngxStreamProxyConnect (conf : ProxyConf) (m : Moment) (result : ConnectResult) (u : Upstream) (s : ProxySession) :
    Upstream × ProxySession :=
  if result = .stateFailed then
    (u, { s with call := .finalize })
  else
    let chosen := peerGet conf.method conf.points m u s.data
    let exhausted := noneEligible m.now u s.calls
    if chosen.1 = .ok then
      (chosen.2.1,
        { s with
          call := result.call
          data := chosen.2.2
          sockaddr := true
          connection := result = .again || result = .ok
          ssl := false
          proxyProtocol := conf.proxyProtocol
          calls := s.calls ++ [.get chosen.2.2.rrp.current exhausted] })
    else
      (chosen.2.1,
        { s with
          call := .finalize
          data := chosen.2.2
          connection := false
          ssl := false
          proxyProtocol := conf.proxyProtocol
          calls := s.calls ++ [.get none exhausted] })

/-- A connection in progress fails (or its time is over), or it is made. -/
def ngxStreamProxyConnectHandler (ok : Bool) (s : ProxySession) : ProxySession :=
  { s with call := if ok then .initUpstream else .nextUpstream }

/-- What can go wrong in `ngx_stream_proxy_init_upstream`. -/
inductive InitResult where
  | nodelayFailed
  | headerFailed
  | headerAgain
  | allocFailed
  | ok
  deriving DecidableEq

def ngxStreamProxyInitUpstream (conf : ProxyConf) (result : InitResult) (u : Upstream) (s : ProxySession) :
    Upstream × ProxySession :=
  if conf.stream ∧ result = .nodelayFailed then
    (u, { s with call := .nextUpstream })
  else if conf.ssl ∧ conf.stream ∧ s.proxyProtocol ∧ result = .headerFailed then
    (u, { s with call := .finalize })
  else if conf.ssl ∧ conf.stream ∧ s.proxyProtocol ∧ result = .headerAgain then
    (u, { s with call := .connectHandler })
  else if conf.ssl ∧ !s.ssl then
    (u, { s with call := .sslInitConnection, proxyProtocol := s.proxyProtocol && !conf.stream })
  else
    (if conf.stream then ngxStreamUpstreamNotifyRoundRobinPeer u s.data.rrp else u,
      if result = .allocFailed then { s with call := .finalize } else { s with call := .process, proxyProtocol := false })

/-- The handshake cannot be set up, goes on, or is over (well or not). -/
inductive SslResult where
  | error
  | again
  | done
  deriving DecidableEq

def ngxStreamProxySslInitConnection (result : SslResult) (s : ProxySession) : ProxySession :=
  match result with
  | .error => { s with call := .finalize, ssl := true }
  | .again | .done => { s with call := .sslHandshake, ssl := true }

/-- At the end of a handshake: it failed, there is no memory for the buffer, or it succeeded. -/
inductive HandshakeResult where
  | failed
  | allocFailed
  | ok
  deriving DecidableEq

def ngxStreamProxySslHandshake (result : HandshakeResult) (s : ProxySession) : ProxySession :=
  match result with
  | .failed => { s with call := .nextUpstream }
  | .allocFailed => { s with call := .finalize }
  | .ok => { s with call := .initUpstream }

/-- `peer.free` and `sockaddr = NULL`, when an address is set. -/
def ProxySession.freePeer (failed : Bool) (now : ℤ) (u : Upstream) (s : ProxySession) : Upstream × ProxySession :=
  if s.sockaddr then
    let freed := ngxStreamUpstreamFreeRoundRobinPeer failed now u s.data.rrp s.tries
    (freed.1, { s with tries := freed.2, sockaddr := false, calls := s.calls ++ [.free s.data.rrp.current] })
  else
    (u, s)

/-- With data still buffered for the connection, or without tries or time left, the session ends here. -/
def ngxStreamProxyNextUpstream (conf : ProxyConf) (buffered timedOut : Bool) (now : ℤ) (u : Upstream)
    (s : ProxySession) : Upstream × ProxySession :=
  if s.connection ∧ buffered then
    (u, { s with call := .finalize })
  else
    let freed := s.freePeer true now u
    if freed.2.tries = 0 ∨ !conf.nextUpstream ∨ timedOut then
      (freed.1, { freed.2 with call := .finalize })
    else
      (freed.1, { freed.2 with call := .connect, connection := false, ssl := false })

/-- The peer of a datagram connection with an error has failed. -/
def ngxStreamProxyFinalize (conf : ProxyConf) (error : Bool) (now : ℤ) (u : Upstream) (s : ProxySession) :
    Upstream × ProxySession :=
  let freed := s.freePeer (s.connection && !conf.stream && error) now u
  (freed.1, { freed.2 with call := .finalized, connection := false, ssl := false })

/-! ### All sessions -/

/-- The sessions that were accepted so far, and the peers that they share. -/
structure Proxy where
  upstream : Upstream
  number : ℕ
  session : ℕ → ProxySession

/-- A session is accepted, or one of them takes a step. `teardown` is every call of `ngx_stream_proxy_finalize` from a
handler of the client or the upstream: a read or write error, a closed connection, a time that is over, the end of the
worker. -/
inductive ProxyEvent where
  | accept
  | handler (s : ℕ) (ok : Bool) (key : List UInt8)
  | connect (s : ℕ) (m : Moment) (result : ConnectResult)
  | connectHandler (s : ℕ) (ok : Bool)
  | initUpstream (s : ℕ) (result : InitResult)
  | sslInitConnection (s : ℕ) (result : SslResult)
  | sslHandshake (s : ℕ) (result : HandshakeResult)
  | teardown (s : ℕ)
  | nextUpstream (s : ℕ) (buffered timedOut : Bool) (now : ℤ)
  | finalize (s : ℕ) (error : Bool) (now : ℤ)

/-- The session of an event, and what it does there: the call that it needs and the function. -/
def ProxyEvent.action (conf : ProxyConf) : ProxyEvent →
    Option (ℕ × (ProxyCall → Bool) × (Upstream → ProxySession → Upstream × ProxySession))
  | .accept => none
  | .handler s ok key => some (s, (· = .handler), fun u s => (u, ngxStreamProxyHandler conf ok key u s))
  | .connect s m result => some (s, (· = .connect), ngxStreamProxyConnect conf m result)
  | .connectHandler s ok => some (s, (· = .connectHandler), fun u s => (u, ngxStreamProxyConnectHandler ok s))
  | .initUpstream s result => some (s, (· = .initUpstream), ngxStreamProxyInitUpstream conf result)
  | .sslInitConnection s result =>
    some (s, (· = .sslInitConnection), fun u s => (u, ngxStreamProxySslInitConnection result s))
  | .sslHandshake s result => some (s, (· = .sslHandshake), fun u s => (u, ngxStreamProxySslHandshake result s))
  | .teardown s =>
    some (s, fun call => call = .connectHandler ∨ call = .sslHandshake ∨ call = .process,
      fun u s => (u, { s with call := .finalize }))
  | .nextUpstream s buffered timedOut now =>
    some (s, (· = .nextUpstream), ngxStreamProxyNextUpstream conf buffered timedOut now)
  | .finalize s error now => some (s, (· = .finalize), ngxStreamProxyFinalize conf error now)

def Proxy.step (conf : ProxyConf) (p : Proxy) (e : ProxyEvent) : Proxy :=
  match e.action conf with
  | none => { p with number := p.number + 1, session := Function.update p.session p.number .start }
  | some (s, needs, act) =>
    if s < p.number ∧ needs (p.session s).call then
      let next := act p.upstream (p.session s)
      { p with upstream := next.1, session := Function.update p.session s next.2 }
    else
      p

def Proxy.start (u : Upstream) : Proxy := ⟨u, 0, fun _ => .start⟩

/-! ### What a step can do -/

/-- The calls that come after a successful selection. -/
def ProxyCall.Holding : ProxyCall → Prop
  | .connectHandler | .initUpstream | .sslInitConnection | .sslHandshake | .process | .nextUpstream => True
  | _ => False

/-- What a call of a session can do to the peers and to the session's dealings with them. -/
inductive Moves (conf : ProxyConf) (u : Upstream) (s : ProxySession) (u' : Upstream) (s' : ProxySession) : Prop where
  | init (key : List UInt8) (hfrom : s.call = .handler) (hto : s'.call = .connect) (hu : u' = u)
      (hdata : s'.data = (peerInit conf.method conf.points u key).1)
      (htries : s'.tries = limitTries conf (peerInit conf.method conf.points u key).2)
      (hsockaddr : s'.sockaddr = s.sockaddr) (hcalls : s'.calls = s.calls)
  | quiet (hto : s'.call = .finalize ∨ s.call.Holding ∧ s'.call.Holding)
      (hu : u' = u ∨ u' = ngxStreamUpstreamNotifyRoundRobinPeer u s.data.rrp) (hdata : s'.data = s.data)
      (htries : s'.tries = s.tries) (hsockaddr : s'.sockaddr = s.sockaddr) (hcalls : s'.calls = s.calls)
  | got (m : Moment) (hfrom : s.call = .connect) (hto : s'.call = .finalize ∨ s'.call.Holding)
      (hok : (peerGet conf.method conf.points m u s.data).1 = .ok)
      (hu : u' = (peerGet conf.method conf.points m u s.data).2.1)
      (hdata : s'.data = (peerGet conf.method conf.points m u s.data).2.2) (htries : s'.tries = s.tries)
      (hsockaddr : s'.sockaddr = true)
      (hcalls : s'.calls = s.calls ++ [.get s'.data.rrp.current (noneEligible m.now u s.calls)])
  | busy (m : Moment) (hfrom : s.call = .connect) (hto : s'.call = .finalize)
      (hbusy : (peerGet conf.method conf.points m u s.data).1 ≠ .ok)
      (hu : u' = (peerGet conf.method conf.points m u s.data).2.1)
      (hdata : s'.data = (peerGet conf.method conf.points m u s.data).2.2) (htries : s'.tries = s.tries)
      (hsockaddr : s'.sockaddr = s.sockaddr)
      (hcalls : s'.calls = s.calls ++ [.get none (noneEligible m.now u s.calls)])
  | freed (failed : Bool) (now : ℤ) (hfrom : s.call = .nextUpstream ∨ s.call = .finalize)
      (hto : s'.call = .finalize ∨ s'.call = .finalized ∨
        s'.call = .connect ∧ s.call = .nextUpstream ∧ s'.tries ≠ 0)
      (hheld : s.sockaddr = true)
      (hu : u' = (ngxStreamUpstreamFreeRoundRobinPeer failed now u s.data.rrp s.tries).1) (hdata : s'.data = s.data)
      (htries : s'.tries = (ngxStreamUpstreamFreeRoundRobinPeer failed now u s.data.rrp s.tries).2)
      (hsockaddr : s'.sockaddr = false) (hcalls : s'.calls = s.calls ++ [.free s.data.rrp.current])
  | nothing (hfrom : s.call = .nextUpstream ∨ s.call = .finalize)
      (hto : s'.call = .finalize ∨ s'.call = .finalized ∨ s'.call = .connect ∧ s.call = .nextUpstream)
      (hheld : s.sockaddr = false) (hu : u' = u) (hdata : s'.data = s.data) (htries : s'.tries = s.tries)
      (hsockaddr : s'.sockaddr = false) (hcalls : s'.calls = s.calls)

theorem ConnectResult.call_holding (result : ConnectResult) : result.call = .finalize ∨ result.call.Holding := by
  cases result
  case stateFailed => exact .inl rfl
  case error => exact .inl rfl
  all_goals exact .inr trivial

theorem ngxStreamProxyConnect_moves (conf : ProxyConf) (m : Moment) (result : ConnectResult) (u : Upstream)
    {s : ProxySession} (hfrom : s.call = .connect) :
    Moves conf u s (ngxStreamProxyConnect conf m result u s).1 (ngxStreamProxyConnect conf m result u s).2 := by
  rw [ngxStreamProxyConnect]
  split
  · exact .quiet (.inl rfl) (.inl rfl) rfl rfl rfl rfl
  · dsimp only
    split
    · rename_i hok
      exact .got m hfrom result.call_holding hok rfl rfl rfl rfl rfl
    · rename_i hbusy
      exact .busy m hfrom rfl hbusy rfl rfl rfl rfl rfl

theorem ngxStreamProxyInitUpstream_moves (conf : ProxyConf) (result : InitResult) (u : Upstream) {s : ProxySession}
    (hfrom : s.call = .initUpstream) :
    Moves conf u s (ngxStreamProxyInitUpstream conf result u s).1 (ngxStreamProxyInitUpstream conf result u s).2 := by
  have hholding : s.call.Holding := by rw [hfrom]; trivial
  rw [ngxStreamProxyInitUpstream]
  split
  · exact .quiet (.inr ⟨hholding, trivial⟩) (.inl rfl) rfl rfl rfl rfl
  split
  · exact .quiet (.inl rfl) (.inl rfl) rfl rfl rfl rfl
  split
  · exact .quiet (.inr ⟨hholding, trivial⟩) (.inl rfl) rfl rfl rfl rfl
  split
  · exact .quiet (.inr ⟨hholding, trivial⟩) (.inl rfl) rfl rfl rfl rfl
  · have hu : (if conf.stream then ngxStreamUpstreamNotifyRoundRobinPeer u s.data.rrp else u) = u ∨
        (if conf.stream then ngxStreamUpstreamNotifyRoundRobinPeer u s.data.rrp else u) =
          ngxStreamUpstreamNotifyRoundRobinPeer u s.data.rrp := by
      split
      · exact .inr rfl
      · exact .inl rfl
    by_cases hresult : result = .allocFailed
    · simp only [if_pos hresult]
      exact .quiet (.inl rfl) hu rfl rfl rfl rfl
    · simp only [if_neg hresult]
      exact .quiet (.inr ⟨hholding, trivial⟩) hu rfl rfl rfl rfl

theorem ngxStreamProxyNextUpstream_moves (conf : ProxyConf) (buffered timedOut : Bool) (now : ℤ) (u : Upstream)
    {s : ProxySession} (hfrom : s.call = .nextUpstream) :
    Moves conf u s (ngxStreamProxyNextUpstream conf buffered timedOut now u s).1
      (ngxStreamProxyNextUpstream conf buffered timedOut now u s).2 := by
  rw [ngxStreamProxyNextUpstream]
  split
  · exact .quiet (.inl rfl) (.inl rfl) rfl rfl rfl rfl
  · cases hheld : s.sockaddr with
    | true =>
      simp only [ProxySession.freePeer, hheld, if_true]
      split
      · exact .freed true now (.inl hfrom) (.inl rfl) hheld rfl rfl rfl rfl rfl
      · rename_i hgo
        exact .freed true now (.inl hfrom) (.inr (.inr ⟨rfl, hfrom, fun h => hgo (.inl h)⟩)) hheld rfl rfl rfl rfl rfl
    | false =>
      simp only [ProxySession.freePeer, hheld, Bool.false_eq_true, if_false]
      split
      · exact .nothing (.inl hfrom) (.inl rfl) hheld rfl rfl rfl rfl rfl
      · exact .nothing (.inl hfrom) (.inr (.inr ⟨rfl, hfrom⟩)) hheld rfl rfl rfl rfl rfl

theorem ngxStreamProxyFinalize_moves (conf : ProxyConf) (error : Bool) (now : ℤ) (u : Upstream) {s : ProxySession}
    (hfrom : s.call = .finalize) :
    Moves conf u s (ngxStreamProxyFinalize conf error now u s).1 (ngxStreamProxyFinalize conf error now u s).2 := by
  rw [ngxStreamProxyFinalize]
  cases hheld : s.sockaddr with
  | true =>
    simp only [ProxySession.freePeer, hheld, if_true]
    exact .freed _ now (.inr hfrom) (.inr (.inl rfl)) hheld rfl rfl rfl rfl rfl
  | false =>
    simp only [ProxySession.freePeer, hheld, Bool.false_eq_true, if_false]
    exact .nothing (.inr hfrom) (.inr (.inl rfl)) hheld rfl rfl rfl rfl rfl

/-- Every event that is not the acceptance of a session is a move of one. -/
theorem action_moves {conf : ProxyConf} {e : ProxyEvent} {i : ℕ} {needs : ProxyCall → Bool}
    {act : Upstream → ProxySession → Upstream × ProxySession} (h : e.action conf = some (i, needs, act)) (u : Upstream)
    {s : ProxySession} (hneeds : needs s.call = true) : Moves conf u s (act u s).1 (act u s).2 := by
  cases e with
  | accept => cases h
  | handler i ok key =>
    cases h
    have hfrom : s.call = .handler := of_decide_eq_true hneeds
    cases ok with
    | true => exact .init key hfrom rfl rfl rfl rfl rfl rfl
    | false => exact .quiet (.inl rfl) (.inl rfl) rfl rfl rfl rfl
  | connect i m result =>
    cases h
    exact ngxStreamProxyConnect_moves conf m result u (of_decide_eq_true hneeds)
  | connectHandler i ok =>
    cases h
    have hfrom : s.call = .connectHandler := of_decide_eq_true hneeds
    refine .quiet (.inr ⟨by rw [hfrom]; trivial, ?_⟩) (.inl rfl) rfl rfl rfl rfl
    cases ok <;> trivial
  | initUpstream i result =>
    cases h
    exact ngxStreamProxyInitUpstream_moves conf result u (of_decide_eq_true hneeds)
  | sslInitConnection i result =>
    cases h
    have hfrom : s.call = .sslInitConnection := of_decide_eq_true hneeds
    have hholding : s.call.Holding := by rw [hfrom]; trivial
    cases result with
    | error => exact .quiet (.inl rfl) (.inl rfl) rfl rfl rfl rfl
    | again => exact .quiet (.inr ⟨hholding, trivial⟩) (.inl rfl) rfl rfl rfl rfl
    | done => exact .quiet (.inr ⟨hholding, trivial⟩) (.inl rfl) rfl rfl rfl rfl
  | sslHandshake i result =>
    cases h
    have hfrom : s.call = .sslHandshake := of_decide_eq_true hneeds
    have hholding : s.call.Holding := by rw [hfrom]; trivial
    cases result with
    | failed => exact .quiet (.inr ⟨hholding, trivial⟩) (.inl rfl) rfl rfl rfl rfl
    | allocFailed => exact .quiet (.inl rfl) (.inl rfl) rfl rfl rfl rfl
    | ok => exact .quiet (.inr ⟨hholding, trivial⟩) (.inl rfl) rfl rfl rfl rfl
  | teardown i =>
    cases h
    exact .quiet (.inl rfl) (.inl rfl) rfl rfl rfl rfl
  | nextUpstream i buffered timedOut now =>
    cases h
    exact ngxStreamProxyNextUpstream_moves conf buffered timedOut now u (of_decide_eq_true hneeds)
  | finalize i error now =>
    cases h
    exact ngxStreamProxyFinalize_moves conf error now u (of_decide_eq_true hneeds)

/-- A step accepts a session, moves one or does nothing. -/
theorem Proxy.step_cases (conf : ProxyConf) (p : Proxy) (e : ProxyEvent) :
    p.step conf e = p ∨
      p.step conf e = { p with number := p.number + 1, session := Function.update p.session p.number .start } ∨
      ∃ i u' s', i < p.number ∧ Moves conf p.upstream (p.session i) u' s' ∧
        p.step conf e = { p with upstream := u', session := Function.update p.session i s' } := by
  rw [Proxy.step]
  cases h : e.action conf with
  | none => exact .inr (.inl rfl)
  | some action =>
    obtain ⟨i, needs, act⟩ := action
    dsimp only
    split
    · rename_i hgo
      exact .inr (.inr ⟨i, _, _, hgo.1, action_moves h p.upstream hgo.2, rfl⟩)
    · exact .inl rfl

end NginxDtls
