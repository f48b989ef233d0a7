import NginxDtls.Run

/-! The connection slots of a worker and the descriptors of its process: `ngx_get_connection`, `ngx_free_connection`
and `ngx_close_connection` of `ngx_connection.c`, `ngx_event_udp_accept`, the parts of `ngx_event_recvmsg` and
`ngx_event_connect_peer` that take and give back a slot, and the ways in which the stream module ends a connection.

What the system calls answer is part of an event. A step on a connection that no session holds does nothing: the code
has no pointer to such a connection. No stream connection is ever reusable, so `ngx_drain_connections` has nothing to
close. -/

namespace NginxDtls

/-- Which side of a handshake `c->ssl` is on. -/
inductive SslRole
  | server
  | client
  deriving DecidableEq, Repr

/-- The fields of `ngx_connection_t` that the pool reads. -/
structure Connection where
  fd : ℤ := -1
  shared : Bool := false
  /-- The listening socket the connection came in at, for the connection of a client. -/
  listening : Option ℕ := none
  ssl : Option SslRole := none
  deriving DecidableEq, Repr

/-- What one call of `ngx_event_udp_accept` opened and closed. -/
structure AcceptLog where
  opened : List ℤ
  closed : List ℤ
  deriving DecidableEq, Repr

structure Worker where
  connections : ℕ → Connection
  connectionN : ℕ
  freeConnections : List ℕ
  freeConnectionN : ℕ
  /-- `cycle->files`, used with `NGX_USE_FD_EVENT`. -/
  files : Option (List (Option ℕ))
  /-- The event module has `ngx_add_conn`. -/
  ngxAddConn : Bool
  useEpollEvent : Bool
  /-- The descriptors that are open in the process. -/
  opened : List ℤ
  /-- The connections of the listening sockets. -/
  listeners : List ℕ
  /-- The connections that a session holds. -/
  sessions : List ℕ
  accepts : List AcceptLog

def Worker.live (w : Worker) : List ℕ := w.listeners ++ w.sessions

def Worker.modify (w : Worker) (c : ℕ) (f : Connection → Connection) : Worker :=
  { w with connections := Function.update w.connections c (f (w.connections c)) }

/-! ### Descriptors -/

/-- The lowest number that is not open. -/
def ngxSocket (w : Worker) : ℤ :=
  let lowest : Option ℕ := (List.range (w.opened.length + 1)).find? fun k => (k : ℤ) ∉ w.opened
  lowest.getD 0

def Worker.open (w : Worker) (fd : ℤ) : Worker := { w with opened := fd :: w.opened }

def ngxCloseSocket (w : Worker) (fd : ℤ) : Worker := { w with opened := w.opened.erase fd }

/-! ### Slots -/

/-- `ngx_get_connection`: the head of the free list, cleared. -/
def ngxGetConnection (w : Worker) (s : ℤ) : Option (ℕ × Worker) :=
  if w.files.any fun files => decide (files.length ≤ s.toNat) then none
  else
    match w.freeConnections with
    | [] => none
    | c :: rest =>
      some (c, { w with
        connections := Function.update w.connections c { fd := s }
        freeConnections := rest
        freeConnectionN := w.freeConnectionN - 1
        files := w.files.map fun files =>
          if files[s.toNat]? = some none then files.set s.toNat (some c) else files })

def ngxFreeConnection (w : Worker) (c : ℕ) : Worker :=
  { w with
    freeConnections := c :: w.freeConnections
    freeConnectionN := w.freeConnectionN + 1
    files := w.files.map fun files =>
      let fd := (w.connections c).fd.toNat
      if files[fd]? = some (some c) then files.set fd none else files }

/-- `ngx_close_connection`: a connection whose descriptor is -1 counts as closed already. -/
def ngxCloseConnection (w : Worker) (c : ℕ) : Worker :=
  let conn := w.connections c
  if conn.fd = -1 then w
  else
    let freed := (ngxFreeConnection w c).modify c fun conn => { conn with fd := -1 }
    if conn.shared then freed else ngxCloseSocket freed conn.fd

def ngxCloseAcceptedUdpConnection (w : Worker) (c : ℕ) : Worker :=
  (ngxFreeConnection w c).modify c fun conn => { conn with fd := -1 }

/-! ### `ngx_event_udp_accept` -/

/-- Which of the calls succeed. -/
structure AcceptCalls where
  socket : Bool
  nonblocking : Bool
  setsockopt : Bool
  bind : Bool
  connect : Bool
  addConn : Bool
  deriving DecidableEq, Repr

/-- The worker after the call, whether it returned `NGX_OK`, and what it did to descriptors. -/
structure Accepted where
  worker : Worker
  ok : Bool
  log : AcceptLog

/-- The label `failed`. -/
def acceptFailed (w : Worker) (c : ℕ) (fd : ℤ) (opened : List ℤ) : Accepted where
  worker := (ngxCloseSocket w fd).modify c fun conn => { conn with fd := -1 }
  ok := false
  log := { opened, closed := if fd ∈ w.opened then [fd] else [] }

/-- What follows the branch of the server side. -/
def acceptConnection (w : Worker) (c : ℕ) (fd : ℤ) (opened : List ℤ) (calls : AcceptCalls) : Accepted :=
  let w := w.modify c fun conn => { conn with shared := false }
  if w.ngxAddConn && !w.useEpollEvent && !calls.addConn then acceptFailed w c fd opened
  else { worker := w, ok := true, log := { opened, closed := [] } }

def ngxEventUdpAccept (w : Worker) (c : ℕ) (calls : AcceptCalls) : Accepted :=
  if (w.connections c).ssl = some .server then
    if calls.socket then
      let fd := ngxSocket w
      let w := w.open fd
      if calls.nonblocking && calls.setsockopt && calls.bind && calls.connect then
        acceptConnection (w.modify c fun conn => { conn with fd := fd }) c fd [fd] calls
      else acceptFailed w c fd [fd]
    else { worker := w, ok := false, log := { opened := [], closed := [] } }
  else acceptConnection w c 0 [] calls

/-! ### Events -/

inductive WorkerEvent
  /-- A datagram of a new peer at a listening socket; `setup` says whether all that `ngx_event_recvmsg` needs for the
  connection could be had. -/
  | recvmsg (l : ℕ) (setup : Bool)
  /-- `ngx_ssl_create_connection` for a client. -/
  | createSsl (c : ℕ)
  /-- `ngx_dtls_handshake` or `ngx_stream_proxy_handler` on a shared connection. -/
  | acceptShared (c : ℕ) (calls : AcceptCalls)
  /-- `ngx_event_connect_peer`: the call of `socket`, then the rest of it. -/
  | connectPeer (socket setup : Bool)
  /-- `ngx_stream_proxy_ssl_init_connection`. -/
  | sslInitUpstream (c : ℕ) (calls : AcceptCalls)
  /-- `ngx_stream_close_connection`; `again` is what `ngx_ssl_shutdown` answers. -/
  | closeSession (c : ℕ) (again : Bool)
  /-- `ngx_close_connection` on a connection to an upstream. -/
  | closeUpstream (c : ℕ)
  deriving DecidableEq, Repr

/-- The session that held the connection is over. -/
def Worker.endSession (w : Worker) (c : ℕ) : Worker := { w with sessions := w.sessions.erase c }

def Worker.startSession (w : Worker) (c : ℕ) : Worker := { w with sessions := c :: w.sessions }

/-- The part of `ngx_event_recvmsg` for a peer that has no connection yet. -/
def ngxEventRecvmsg (w : Worker) (lc : ℕ) (setup : Bool) : Worker :=
  match ngxGetConnection w (w.connections lc).fd with
  | none => w
  | some (c, w) =>
    let w := w.modify c fun conn => { conn with shared := true, listening := some lc }
    if setup then w.startSession c else ngxCloseAcceptedUdpConnection w c

def ngxEventConnectPeer (w : Worker) (socket setup : Bool) : Worker :=
  if socket then
    let s := ngxSocket w
    match ngxGetConnection (w.open s) s with
    | none => ngxCloseSocket (w.open s) s
    | some (c, w) => if setup then w.startSession c else ngxCloseConnection w c
  else w

def ngxStreamCloseConnection (w : Worker) (c : ℕ) (again : Bool) : Worker :=
  if (w.connections c).ssl.isSome && again then w
  else (ngxCloseConnection (w.modify c fun conn => { conn with ssl := none }) c).endSession c

def Worker.accept (w : Worker) (c : ℕ) (calls : AcceptCalls) : Worker :=
  let res := ngxEventUdpAccept w c calls
  { res.worker with accepts := res.log :: res.worker.accepts }

def Worker.step (w : Worker) : WorkerEvent → Worker
  | .recvmsg l setup =>
    match w.listeners[l]? with
    | none => w
    | some lc => ngxEventRecvmsg w lc setup
  | .createSsl c =>
    if c ∈ w.sessions ∧ (w.connections c).listening.isSome then
      w.modify c fun conn => { conn with ssl := some .server }
    else w
  | .acceptShared c calls =>
    if c ∈ w.sessions ∧ (w.connections c).shared ∧ (w.connections c).ssl.isSome then w.accept c calls else w
  | .connectPeer socket setup => ngxEventConnectPeer w socket setup
  | .sslInitUpstream c calls =>
    if c ∈ w.sessions ∧ (w.connections c).listening = none then
      (w.modify c fun conn => { conn with ssl := some .client }).accept c calls
    else w
  | .closeSession c again =>
    if c ∈ w.sessions ∧ (w.connections c).listening.isSome then ngxStreamCloseConnection w c again else w
  | .closeUpstream c =>
    if c ∈ w.sessions ∧ (w.connections c).listening = none then
      (ngxCloseConnection (w.modify c fun conn => { conn with ssl := none }) c).endSession c
    else w

/-! ### The start of a worker -/

/-- The descriptors a worker starts with: those of its listening sockets, and others. -/
structure Descriptors where
  listening : List ℤ
  others : List ℤ
  nodup : (listening ++ others).Nodup
  nonneg : ∀ fd ∈ listening ++ others, 0 ≤ fd

/-- A connection for each listening socket. -/
def listen : List ℤ → Worker → Option Worker
  | [], w => some w
  | fd :: fds, w =>
    match ngxGetConnection w fd with
    | none => none
    | some (c, w) => listen fds { w with listeners := c :: w.listeners }

/-- The part of `ngx_event_process_init` that fills the pool. -/
def ngxEventProcessInit (n : ℕ) (d : Descriptors) (filesN : Option ℕ) (ngxAddConn useEpollEvent : Bool) :
    Option Worker :=
  listen d.listening {
    connections := fun _ => {}
    connectionN := n
    freeConnections := List.range n
    freeConnectionN := n
    files := filesN.map fun k => List.replicate k none
    ngxAddConn, useEpollEvent
    opened := d.listening ++ d.others
    listeners := []
    sessions := []
    accepts := [] }

end NginxDtls
