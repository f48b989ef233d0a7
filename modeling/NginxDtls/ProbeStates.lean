import NginxDtls.ProbePhases

/-! The states of a session, and what every event makes of them. A session that has absorbed its first datagram waits
with a timer on `c->read`; nothing takes this timer away when the next datagram brings the session to the proxy. -/

namespace NginxDtls.ProbeSession

open Run

variable {hmacSha1 : List UInt8 → List UInt8 → List UInt8}

/-! ### What the proxy keeps -/

/-- The session has passed through code of the proxy: it has an upstream, nothing but queued datagrams has been added
to the log, `c->buffer` is what it was, and so is the timer unless the session has ended. -/
structure Proxied (s t : Session) : Prop where
  upstream : t.upstream.isSome = true
  log : ∃ ds : List (List UInt8), t.log = s.log ++ ds.map Act.forward
  buffer : t.conn.buffer = s.conn.buffer
  state : t.life = .closed ∧ t.timerSet = false ∨
    t.life = s.life ∧ t.timerSet = s.timerSet ∧ t.timedout = s.timedout

theorem Proxied.finalize {s : Session} (h : s.upstream.isSome = true) : Proxied s s.finalize :=
  ⟨h, ⟨[], (List.append_nil _).symm⟩, rfl, Or.inl ⟨rfl, rfl⟩⟩

/-- The same code after a change that matters to none of this. -/
theorem Proxied.of_eq {s s' t : Session} (h : Proxied s' t) (hlog : s'.log = s.log) (hlife : s'.life = s.life)
    (htimer : s'.timerSet = s.timerSet) (htimedout : s'.timedout = s.timedout)
    (hbuffer : s'.conn.buffer = s.conn.buffer) : Proxied s t := by
  refine ⟨h.upstream, ?_, h.buffer.trans hbuffer, ?_⟩
  · rw [← hlog]
    exact h.log
  · rw [← hlife, ← htimer, ← htimedout]
    exact h.state

theorem Proxied.forward {s s' t : Session} (h : Proxied s' t) {ds : List (List UInt8)}
    (hlog : s'.log = s.log ++ ds.map Act.forward) (hlife : s'.life = s.life) (htimer : s'.timerSet = s.timerSet)
    (htimedout : s'.timedout = s.timedout) (hbuffer : s'.conn.buffer = s.conn.buffer) : Proxied s t := by
  refine ⟨h.upstream, ?_, h.buffer.trans hbuffer, ?_⟩
  · obtain ⟨ds', hds'⟩ := h.log
    refine ⟨ds ++ ds', ?_⟩
    rw [hds', hlog, List.map_append, List.append_assoc]
  · rw [← hlife, ← htimer, ← htimedout]
    exact h.state

section Proxy

variable {conf : Conf} {env : Env} {s : Session} {u : Upstream}

/-- Enough datagrams of the client have come that the table forgets the session. -/
def Upstream.leaves (conf : Conf) (u : Upstream) : Bool := decide (conf.requests ≠ 0 ∧ conf.requests ≤ u.requests)

/-- Everything that is expected has been passed on. -/
def Upstream.finishes (conf : Conf) (u : Upstream) : Bool :=
  decide ((conf.requests = 0 ∨ conf.requests ≤ u.requests) ∧ u.stage = .connected ∧ u.pending = false) &&
    conf.responses.any fun responses => decide (responses * u.requests ≤ u.responses)

/-- The session with the upstream, which the table may have forgotten. -/
def Session.counted (conf : Conf) (s : Session) (u : Upstream) : Session :=
  { s with upstream := some u, conn := { s.conn with udp := if u.leaves conf then none else s.conn.udp } }

theorem testFinalize_eq : ngxStreamProxyTestFinalize conf s u =
    if u.finishes conf then (s.counted conf u).finalize else s.counted conf u := by
  rw [ngxStreamProxyTestFinalize]
  by_cases hfew : conf.requests ≠ 0 ∧ u.requests < conf.requests
  · have hstays : u.leaves conf = false := decide_eq_false fun h => absurd h.2 (not_le.mpr hfew.2)
    have hopen : u.finishes conf = false := by
      rw [Upstream.finishes, Bool.and_eq_false_iff]
      exact Or.inl (decide_eq_false fun h => h.1.elim hfew.1 fun hle => absurd hfew.2 (not_lt.mpr hle))
    rw [if_pos hfew, hopen, if_neg Bool.false_ne_true, Session.counted, hstays, if_neg Bool.false_ne_true]
  · have hcount : conf.requests = 0 ∨ conf.requests ≤ u.requests := by
      by_contra hne
      rw [not_or] at hne
      exact hfew ⟨hne.1, not_le.mp hne.2⟩
    have hcounted : (if conf.requests ≠ 0 then
        { s with upstream := some u, conn := { s.conn with udp := none } } else { s with upstream := some u }) =
          s.counted conf u := by
      rw [Session.counted]
      by_cases hrequests : conf.requests ≠ 0
      · have hleaves : u.leaves conf = true := decide_eq_true ⟨hrequests, hcount.resolve_left hrequests⟩
        rw [if_pos hrequests, hleaves, if_pos rfl]
      · have hstays : u.leaves conf = false := decide_eq_false fun h => hrequests h.1
        rw [if_neg hrequests, hstays, if_neg Bool.false_ne_true]
    rw [if_neg hfew]
    dsimp only
    rw [hcounted, Upstream.finishes]
    cases conf.responses with
    | none =>
        dsimp only
        rw [Option.any_none, Bool.and_false, if_neg Bool.false_ne_true]
    | some responses =>
        dsimp only
        rw [Option.any_some]
        by_cases hmissing : u.responses < responses * u.requests
        · rw [if_pos hmissing, decide_eq_false (not_le.mpr hmissing), Bool.and_false, if_neg Bool.false_ne_true]
        · rw [if_neg hmissing, decide_eq_true (not_lt.mp hmissing), Bool.and_true]
          by_cases hbusy : u.stage ≠ .connected ∨ u.pending
          · rw [if_pos hbusy, decide_eq_false, if_neg Bool.false_ne_true]
            rintro ⟨-, hstage, hpending⟩
            rcases hbusy with hne | htrue
            · exact hne hstage
            · rw [hpending] at htrue
              cases htrue
          · rw [if_neg hbusy]
            rw [not_or, not_not, Bool.not_eq_true] at hbusy
            rw [decide_eq_true ⟨hcount, hbusy⟩, if_pos rfl]

theorem testFinalize_proxied : Proxied s (ngxStreamProxyTestFinalize conf s u) := by
  rw [testFinalize_eq]
  split
  · exact ⟨rfl, ⟨[], (List.append_nil _).symm⟩, rfl, Or.inl ⟨rfl, rfl⟩⟩
  · exact ⟨rfl, ⟨[], (List.append_nil _).symm⟩, rfl, Or.inr ⟨rfl, rfl, rfl⟩⟩

theorem process_proxied (doWrite : Bool) : Proxied s (ngxStreamProxyProcess conf env s u doWrite) := by
  rw [ngxStreamProxyProcess]
  split
  · exact (Proxied.finalize rfl).of_eq rfl rfl rfl rfl rfl
  · dsimp only
    split
    · exact testFinalize_proxied
    · split
      · exact @Proxied.forward _ _ _ (Proxied.finalize rfl) [_] rfl rfl rfl rfl rfl
      · exact @Proxied.forward _ _ _ testFinalize_proxied [_] rfl rfl rfl rfl rfl

/-- The datagram of the connection has been read and queued as `d`. -/
def Session.read (s : Session) (d : List UInt8) : Session :=
  { s with
    conn := { s.conn with udp := s.conn.udp.map fun _ => none }
    ready := false
    log := s.log ++ [.forward d] }

variable {u' : Upstream} {doWrite : Bool}

theorem process_read (hwrite : (if doWrite then processWrite u env.first else some u) = some u')
    (hsize : 0 < conf.bufferSize - u'.last) (hready : s.ready = true) {d : List UInt8}
    (hudp : s.conn.udp = some (some d)) :
    ngxStreamProxyProcess conf env s u doWrite =
      (processWrite (u'.queueReceived (d.take (conf.bufferSize - u'.last))) env.second).elim
        (Session.finalize { s.read (u'.header ++ d.take (conf.bufferSize - u'.last)) with
          upstream := some (u'.queueReceived (d.take (conf.bufferSize - u'.last))) })
        (ngxStreamProxyTestFinalize conf (s.read (u'.header ++ d.take (conf.bufferSize - u'.last)))) := by
  rw [ngxStreamProxyProcess, hwrite]
  dsimp only
  rw [if_pos ⟨hsize, hready⟩, hudp, Option.join_some]
  dsimp only
  rw [Session.read, hudp]
  split
  · rename_i hnone
    rw [hnone, Option.elim_none]
  · rename_i hsome
    rw [hsome, Option.elim_some]

theorem process_idle (hwrite : (if doWrite then processWrite u env.first else some u) = some u')
    (hidle : 0 < conf.bufferSize - u'.last ∧ s.ready = true → s.conn.udp.join = none) :
    ngxStreamProxyProcess conf env s u doWrite = ngxStreamProxyTestFinalize conf s u' := by
  rw [ngxStreamProxyProcess, hwrite]
  dsimp only
  have hnone : (if 0 < conf.bufferSize - u'.last ∧ s.ready = true then s.conn.udp.join else none) = none := by
    split
    · rename_i h
      exact hidle h
    · rfl
  rw [hnone]

/-- Nothing waits to be sent. -/
theorem processWrite_of_not_pending (h : u.pending = false) (sent : Sent) : processWrite u sent = some u := by
  unfold processWrite
  rw [if_neg]
  rw [h]
  exact fun hc => Bool.false_ne_true hc.2

theorem processWrite_pending (hstage : u.stage = .connected) (hpending : u.pending = true) :
    processWrite u .all = some { u with pending := false, last := 0 } ∧ processWrite u .again = some u ∧
      processWrite u .error = none := by
  simp only [processWrite, hstage, hpending, and_self, if_true]

theorem initUpstream_proxied : Proxied s (ngxStreamProxyInitUpstream conf env s u) := by
  rw [ngxStreamProxyInitUpstream]
  refine @Proxied.forward _ _ _ (process_proxied true) (s.conn.buffer.toList.map (conf.header ++ ·)) ?_ rfl rfl rfl rfl
  rw [List.map_map]
  rfl

theorem connect_proxied : Proxied s (ngxStreamProxyConnect conf env s u) := by
  rw [ngxStreamProxyConnect]
  split
  · exact ⟨rfl, ⟨[], (List.append_nil _).symm⟩, rfl, Or.inr ⟨rfl, rfl, rfl⟩⟩
  · exact initUpstream_proxied

theorem handler_proxied : Proxied s (ngxStreamProxyHandler conf env s) := by
  rw [ngxStreamProxyHandler]
  split
  · dsimp only
    split
    · exact ⟨rfl, ⟨[], (List.append_nil _).symm⟩, rfl, Or.inr ⟨rfl, rfl, rfl⟩⟩
    · exact connect_proxied.of_eq rfl rfl rfl rfl rfl
  · exact (Proxied.finalize rfl).of_eq rfl rfl rfl rfl rfl

theorem upstreamEvent_proxied (hup : s.upstream = some u) (event : Event) :
    Proxied s (upstreamEvent conf s u event) := by
  have hsome : s.upstream.isSome = true := by rw [hup]; rfl
  have hsame : Proxied s s := ⟨hsome, ⟨[], (List.append_nil _).symm⟩, rfl, Or.inr ⟨rfl, rfl, rfl⟩⟩
  cases event with
  | resolved env =>
      rw [upstreamEvent]
      split
      · exact hsame
      · split
        · exact connect_proxied
        · exact Proxied.finalize hsome
  | handshaked env =>
      rw [upstreamEvent]
      split
      · exact hsame
      · split
        · exact initUpstream_proxied
        · exact Proxied.finalize hsome
  | nextUpstream env =>
      rw [upstreamEvent]
      split
      · exact hsame
      · split
        · exact connect_proxied
        · exact Proxied.finalize hsome
  | writable env =>
      rw [upstreamEvent]
      split
      · exact process_proxied true
      · exact hsame
  | response n =>
      rw [upstreamEvent]
      split
      · exact testFinalize_proxied
      · exact hsame
  | _ => exact hsame

end Proxy

/-! ### The states of a session -/

/-- A session that has absorbed every datagram so far. -/
def waiting (conf : Conf) (log : List Act) : Session where
  life := .live
  conn := ⟨true, none, some none⟩
  ready := false
  posted := false
  timerSet := true
  timedout := false
  phaseHandler := conf.probePhase
  upstream := none
  log := log

/-- A session is fresh, waits for a datagram in the probe phase, has come to the proxy, or has ended. -/
inductive Reached (conf : Conf) : Session → Prop where
  | fresh : Reached conf start
  | waiting (log : List Act) : Reached conf (waiting conf log)
  | proxied {s : Session} (live : s.life = .live) (upstream : s.upstream.isSome = true)
      (timedout : s.timedout = false) : Reached conf s
  | closed {s : Session} (closed : s.life = .closed) (timerSet : s.timerSet = false) : Reached conf s

theorem Proxied.reached {conf : Conf} {s t : Session} (h : Proxied s t) (hlive : s.life = .live)
    (htimedout : s.timedout = false) : Reached conf t := by
  rcases h.state with ⟨hclosed, htimer⟩ | ⟨hlife, -, htimed⟩
  · exact .closed hclosed htimer
  · exact .proxied (hlife.trans hlive) h.upstream (htimed.trans htimedout)

/-- The end of `ngx_event_recvmsg`: the connection does not hold the datagram any longer. -/
def Session.clear (s : Session) : Session :=
  { s with conn := { s.conn with udp := s.conn.udp.map fun _ => none }, ready := false }

section Receive

variable {conf : Conf} {env : Env} {d : List UInt8}

/-- A session that has just been accepted. -/
def accepted (d : List UInt8) : Session := { start with life := .live, conn := ⟨true, some d, some none⟩ }

/-- A waiting session with another datagram. -/
def resumed (conf : Conf) (log : List Act) (d : List UInt8) : Session :=
  { waiting conf log with conn := ⟨true, none, some (some d)⟩, ready := true }

theorem accepted_atProbe (hadmits : conf.admits = true) : AtProbe conf (accepted d) := ⟨rfl, rfl, Or.inr ⟨rfl, hadmits⟩⟩

variable (conf d) in
theorem resumed_atProbe (log : List Act) : AtProbe conf (resumed conf log d) := ⟨rfl, rfl, Or.inl rfl⟩

theorem step_accepted (haccepted : env.accepted = true) :
    step hmacSha1 conf start (.datagram d env) = readHandler hmacSha1 conf env (accepted d) := by
  show ngxEventRecvmsg hmacSha1 conf start d env = _
  rw [ngxEventRecvmsg]
  exact if_pos haccepted

theorem step_waiting (log : List Act) : step hmacSha1 conf (waiting conf log) (.datagram d env) =
    (readHandler hmacSha1 conf env (resumed conf log d)).clear := rfl

theorem step_absorbed (hprobe : conf.probeEnable = true) (haccepted : env.accepted = true)
    (hadmits : conf.admits = true) (h : Absorbed hmacSha1 env d) :
    step hmacSha1 conf start (.datagram d env) = waiting conf (probeAnswers hmacSha1 env d) := by
  rw [step_accepted haccepted, readHandler_absorbed hprobe (accepted_atProbe hadmits) (Or.inl rfl) h]
  rfl

theorem step_waiting_absorbed (hprobe : conf.probeEnable = true) (log : List Act) (h : Absorbed hmacSha1 env d) :
    step hmacSha1 conf (waiting conf log) (.datagram d env) =
      waiting conf (log ++ probeAnswers hmacSha1 env d) := by
  rw [step_waiting, readHandler_absorbed hprobe (resumed_atProbe conf _ log) (Or.inr rfl) h]
  rfl

/-- An accepted session that goes on to the proxy. -/
def handedFirst (conf : Conf) (log : List Act) (d : List UInt8) : Session :=
  { accepted d with log := log, phaseHandler := conf.probePhase + 1 + 1 }

/-- A waiting session that goes on to the proxy. -/
def handedLater (conf : Conf) (log : List Act) (d : List UInt8) : Session :=
  { resumed conf log d with phaseHandler := conf.probePhase + 1 + 1 }

theorem step_passedOn (hprobe : conf.probeEnable = true) (haccepted : env.accepted = true)
    (hadmits : conf.admits = true) (h : PassedOn hmacSha1 env d) :
    step hmacSha1 conf start (.datagram d env) = ngxStreamProxyHandler conf env
      (handedFirst conf (probeAnswers hmacSha1 env d) (probeLeft hmacSha1 env d)) := by
  obtain ⟨conn, hholds, hbuffer, hrun⟩ :=
    readHandler_passedOn hprobe (accepted_atProbe (d := d) hadmits) (Or.inl rfl) h
  rcases hholds with rfl | rfl
  · rw [step_accepted haccepted, hrun]
    rfl
  · exact absurd hbuffer Bool.false_ne_true

theorem step_waiting_passedOn (hprobe : conf.probeEnable = true) (log : List Act) (h : PassedOn hmacSha1 env d) :
    step hmacSha1 conf (waiting conf log) (.datagram d env) = (ngxStreamProxyHandler conf env
      (handedLater conf (log ++ probeAnswers hmacSha1 env d) (probeLeft hmacSha1 env d))).clear := by
  obtain ⟨conn, hholds, hbuffer, hrun⟩ :=
    readHandler_passedOn hprobe (resumed_atProbe conf d log) (Or.inr rfl) h
  rcases hholds with rfl | rfl
  · exact absurd hbuffer Bool.true_eq_false.mp
  · rw [step_waiting, hrun]
    rfl

theorem step_gone (hprobe : conf.probeEnable = true) (haccepted : env.accepted = true) (hadmits : conf.admits = true)
    (h : probed hmacSha1 env d = none) : ∃ s : Session,
      step hmacSha1 conf start (.datagram d env) = s.finalize ∧ s.log = [] := by
  rw [step_accepted haccepted]
  exact readHandler_gone hprobe (accepted_atProbe hadmits) (Or.inl rfl) h

theorem step_waiting_gone (hprobe : conf.probeEnable = true) (log : List Act) (h : probed hmacSha1 env d = none) :
    ∃ s : Session, step hmacSha1 conf (waiting conf log) (.datagram d env) = s.finalize.clear ∧ s.log = log := by
  obtain ⟨s, hrun, hlog⟩ := readHandler_gone hprobe (resumed_atProbe conf d log) (Or.inr rfl) h
  exact ⟨s, by rw [step_waiting, hrun], hlog⟩

variable (hmacSha1 d) in
/-- A client that is not accepted, or that a phase before rejects. -/
theorem step_rejected (h : ¬(env.accepted = true ∧ conf.admits = true)) :
    ∃ s : Session, step hmacSha1 conf start (.datagram d env) = s.finalize ∧ s.log = [] ∧ s.upstream = none := by
  by_cases haccepted : env.accepted = true
  · have hadmits : conf.admits = false := by simpa [haccepted] using h
    obtain ⟨j, hrun⟩ := readHandler_rejected hmacSha1 env (s := accepted d) rfl rfl hadmits
    exact ⟨_, (step_accepted haccepted).trans hrun, rfl, rfl⟩
  · refine ⟨start, ?_, rfl, rfl⟩
    show ngxEventRecvmsg hmacSha1 conf start d env = _
    rw [ngxEventRecvmsg]
    exact if_neg haccepted

end Receive

/-! ### Every event -/

section Step

variable {conf : Conf} {s : Session}

theorem Reached.clear (h : Reached conf s) (hup : s.life = .live → s.upstream.isSome = true)
    (hfresh : s.life ≠ .fresh) : Reached conf s.clear := by
  cases h with
  | fresh => exact absurd rfl hfresh
  | waiting log => exact absurd (hup rfl) Bool.false_ne_true
  | proxied live upstream timedout => exact .proxied live upstream timedout
  | closed closed timerSet => exact .closed closed timerSet

theorem Proxied.clear {t : Session} (h : Proxied s t) (hlive : s.life = .live) (htimedout : s.timedout = false) :
    Reached conf t.clear := by
  refine (h.reached hlive htimedout).clear (fun _ => h.upstream) fun hfresh => ?_
  rcases h.state with ⟨hclosed, -⟩ | ⟨hlife, -⟩
  · rw [hclosed] at hfresh
    cases hfresh
  · rw [hlife, hlive] at hfresh
    cases hfresh

theorem finalize_reached (s : Session) : Reached conf s.finalize := .closed rfl rfl

/-- A read event of a session that has come to the proxy. -/
theorem readHandler_proxied {env : Env} (hup : s.upstream.isSome = true) :
    Proxied s (readHandler hmacSha1 conf env s) := by
  obtain ⟨u, hu⟩ := Option.isSome_iff_exists.mp hup
  rw [readHandler]
  split
  · rename_i hnone
    rw [hnone] at hu
    cases hu
  · rw [ngxStreamProxyDownstreamHandler]
    split
    · exact ⟨hup, ⟨[], (List.append_nil _).symm⟩, rfl, Or.inl ⟨rfl, rfl⟩⟩
    · exact process_proxied false

/-- The timer of `c->read` ends a session that has come to the proxy. -/
theorem readHandler_timedout {env : Env} (hup : s.upstream.isSome = true) (htimedout : s.timedout = true) :
    (readHandler hmacSha1 conf env s).life = .closed ∧ (readHandler hmacSha1 conf env s).timerSet = false := by
  obtain ⟨u, hu⟩ := Option.isSome_iff_exists.mp hup
  rw [readHandler]
  split
  · rename_i hnone
    rw [hnone] at hu
    cases hu
  · rw [ngxStreamProxyDownstreamHandler, if_pos htimedout]
    exact ⟨rfl, rfl⟩

variable (hmacSha1 conf) in
/-- An event of a session that has come to the proxy. -/
theorem step_proxied (hlive : s.life = .live) (hup : s.upstream.isSome = true) (event : Event) :
    ∃ t, Proxied s t ∧ (step hmacSha1 conf s event = t ∨ step hmacSha1 conf s event = t.clear) := by
  obtain ⟨u, hu⟩ := Option.isSome_iff_exists.mp hup
  have hsame : Proxied s s := ⟨hup, ⟨[], (List.append_nil _).symm⟩, rfl, Or.inr ⟨rfl, rfl, rfl⟩⟩
  have hevent : Proxied s (upstreamEvent conf s u event) := upstreamEvent_proxied hu event
  cases event with
  | datagram d env =>
      show ∃ t, Proxied s t ∧ (ngxEventRecvmsg hmacSha1 conf s d env = t ∨ ngxEventRecvmsg hmacSha1 conf s d env = t.clear)
      rw [ngxEventRecvmsg, hlive]
      dsimp only
      split
      · refine ⟨_, ?_, Or.inr rfl⟩
        exact Proxied.of_eq (readHandler_proxied (by exact hup)) rfl hlive.symm rfl rfl rfl
      · exact ⟨s, hsame, Or.inl rfl⟩
  | expired env =>
      rw [step]
      split
      · have h : Proxied { s with timerSet := false, timedout := true } (readHandler hmacSha1 conf env
          { s with timerSet := false, timedout := true }) := readHandler_proxied hup
        exact ⟨_, ⟨h.upstream, h.log, h.buffer, Or.inl (readHandler_timedout hup rfl)⟩, Or.inl rfl⟩
      · exact ⟨s, hsame, Or.inl rfl⟩
  | posted env =>
      rw [step]
      split
      · refine ⟨_, ?_, Or.inl rfl⟩
        exact Proxied.of_eq (readHandler_proxied (by exact hup)) rfl rfl rfl rfl rfl
      · exact ⟨s, hsame, Or.inl rfl⟩
  | finalize =>
      rw [step, if_pos hlive]
      exact ⟨_, Proxied.finalize hup, Or.inl rfl⟩
  | _ =>
      simp only [step, hlive, if_true, hu, Option.elim_some]
      exact ⟨_, hevent, Or.inl rfl⟩

variable (hmacSha1 conf) in
/-- An event of a waiting session that is not a datagram ends it or does nothing. -/
theorem step_waiting_other (log : List Act) {event : Event} (h : ∀ d env, event ≠ .datagram d env) :
    step hmacSha1 conf (waiting conf log) event = waiting conf log ∨
      ∃ s : Session, step hmacSha1 conf (waiting conf log) event = s.finalize ∧ s.upstream = none := by
  cases event with
  | datagram d env => exact absurd rfl (h d env)
  | expired env =>
      refine Or.inr ⟨{ waiting conf log with timerSet := false, timedout := true }, ?_, rfl⟩
      have hphase : AtProbe conf { waiting conf log with timerSet := false } := ⟨rfl, rfl, Or.inl rfl⟩
      have hlength := probePhase_lt conf
      show readHandler hmacSha1 conf env { waiting conf log with timerSet := false, timedout := true } = _
      show ngxStreamCoreRunPhases hmacSha1 conf env conf.phaseEngine.length
        { waiting conf log with timerSet := false, timedout := true } = _
      rw [runPhases_probe rfl (by omega), ngxStreamProbeHandler]
      rfl
  | posted env => exact Or.inl rfl
  | finalize => exact Or.inr ⟨waiting conf log, rfl, rfl⟩
  | _ => exact Or.inl rfl

theorem step_closed (h : s.life = .closed) (event : Event) : step hmacSha1 conf s event = s := by
  have hlive : s.life ≠ .live := by rw [h]; decide
  cases event with
  | datagram d env =>
      show ngxEventRecvmsg hmacSha1 conf s d env = s
      rw [ngxEventRecvmsg, h]
  | expired env => rw [step, if_neg fun hc => hlive hc.1]
  | posted env => rw [step, if_neg fun hc => hlive hc.1]
  | _ => simp only [step, h, reduceCtorEq, if_false]

theorem step_start (event : Event) (h : ∀ d env, event ≠ .datagram d env) : step hmacSha1 conf start event = start := by
  cases event with
  | datagram d env => exact absurd rfl (h d env)
  | _ => rfl

theorem step_reached (hprobe : conf.probeEnable = true) (h : Reached conf s) (event : Event) :
    Reached conf (step hmacSha1 conf s event) := by
  cases h with
  | fresh =>
      by_cases hdatagram : ∃ d env, event = .datagram d env
      · obtain ⟨d, env, rfl⟩ := hdatagram
        by_cases hin : env.accepted = true ∧ conf.admits = true
        · obtain ⟨haccepted, hadmits⟩ := hin
          rcases probed_cases hmacSha1 env d with h | h | h
          · rw [step_absorbed hprobe haccepted hadmits h]
            exact .waiting _
          · rw [step_passedOn hprobe haccepted hadmits h]
            exact handler_proxied.reached rfl rfl
          · obtain ⟨s, hrun, -⟩ := step_gone hprobe haccepted hadmits h
            rw [hrun]
            exact finalize_reached s
        · obtain ⟨s, hrun, -⟩ := step_rejected hmacSha1 d hin
          rw [hrun]
          exact finalize_reached s
      · rw [step_start event fun d env heq => hdatagram ⟨d, env, heq⟩]
        exact .fresh
  | waiting log =>
      by_cases hdatagram : ∃ d env, event = .datagram d env
      · obtain ⟨d, env, rfl⟩ := hdatagram
        rcases probed_cases hmacSha1 env d with h | h | h
        · rw [step_waiting_absorbed hprobe log h]
          exact .waiting _
        · rw [step_waiting_passedOn hprobe log h]
          exact handler_proxied.clear rfl rfl
        · obtain ⟨s, hrun, -⟩ := step_waiting_gone hprobe log h
          rw [hrun]
          exact .closed rfl rfl
      · rcases step_waiting_other hmacSha1 conf log
          (fun d env heq => hdatagram ⟨d, env, heq⟩) with hrun | ⟨s, hrun, -⟩
        · rw [hrun]
          exact .waiting log
        · rw [hrun]
          exact finalize_reached s
  | proxied live upstream timedout =>
      obtain ⟨t, ht, hrun | hrun⟩ := step_proxied hmacSha1 conf live upstream event
      · rw [hrun]
        exact ht.reached live timedout
      · rw [hrun]
        exact ht.clear live timedout
  | closed closed timerSet =>
      rw [step_closed closed]
      exact .closed closed timerSet

end Step

/-! ### A server -/

/-- An upstream over UDP, with the default limits. -/
def plainConf : Conf where
  before := []
  probeEnable := true
  ssl := false
  resolve := false
  header := []
  bufferSize := 16384
  requests := 0
  responses := none

/-- Everything succeeds. -/
def calm : Env where
  alloc _ := true
  after _ := 0
  blocks _ _ := 0
  accepted := true
  proxied := true
  first := .all
  second := .all

/-- A UDP probe without a name. -/
def udpProbe (ttl : UInt8) : List UInt8 := prefixProbe1 ++ [ttl, 0] ++ List.replicate 16 0

end NginxDtls.ProbeSession
