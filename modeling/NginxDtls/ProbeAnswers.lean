import NginxDtls.ProbeStates

/-! Which probes are answered. The probe phase comes before the proxy and is passed once in a session: a probe is
answered as long as all datagrams before it have been absorbed, and after that it is data for the upstream. -/

namespace NginxDtls.ProbeSession

open Run

variable {hmacSha1 : List UInt8 → List UInt8 → List UInt8} {conf : Conf} {env : Env}

/-- A datagram of the client belongs to the session. -/
def Session.Receives (s : Session) : Prop := s.life = .fresh ∨ s.life = .live ∧ s.conn.udp.isSome = true

/-- A copy of the datagram behind the header of the PROXY protocol, which only a buffer of the proxy that is smaller than a
probe cuts. -/
def CopyOf (conf : Conf) (d f : List UInt8) : Prop :=
  f = conf.header ++ d ∨ conf.bufferSize < 24 ∧ f = conf.header ++ d.take conf.bufferSize

/-- The probe has been answered first, and whatever has been forwarded or is kept for the upstream is the probe of the
reply. -/
def AnsweredFirst (conf : Conf) (s s' : Session) (d : List UInt8) : Prop :=
  (∃ ds : List (List UInt8), s'.log = s.log ++ .reply (hop d) :: ds.map Act.forward ∧
    ∀ f ∈ ds, CopyOf conf (hop d) f) ∧ ∀ b ∈ s'.conn.buffer, b = hop d

/-- The datagram has not been answered. It has been forwarded as it came, as far as it fits into what is left of the buffer
of the proxy, behind the header of the PROXY protocol if that still waits for a datagram. Without room it is lost. -/
def Unanswered (conf : Conf) (s s' : Session) (d : List UInt8) : Prop :=
  ∃ u, s.upstream = some u ∧ (u.header = [] ∨ u.header = conf.header) ∧
    s'.log = s.log ++
      if u.last < conf.bufferSize then [.forward (u.header ++ d.take (conf.bufferSize - u.last))] else []

/-! ### The header -/

/-- What waits in front of the next datagram is nothing or the header of the configuration. -/
def HeaderOf (conf : Conf) (s : Session) : Prop := ∀ u, s.upstream = some u → u.header = [] ∨ u.header = conf.header

theorem headerOf_some {s : Session} {u : Upstream} (hs : s.upstream = some u) (hu : u.header = [] ∨ u.header = conf.header) :
    HeaderOf conf s := by
  intro u' hu'
  rw [hs] at hu'
  cases hu'
  exact hu

theorem processWrite_header {u u' : Upstream} {sent : Sent} (h : processWrite u sent = some u') :
    u'.header = u.header := by
  unfold processWrite at h
  split at h
  · split at h
    · cases h
      rfl
    · cases h
      rfl
    · cases h
  · cases h
    rfl

theorem testFinalize_upstream (s : Session) (u : Upstream) : (ngxStreamProxyTestFinalize conf s u).upstream = some u := by
  rw [testFinalize_eq]
  split <;> rfl

theorem process_header {s : Session} {u : Upstream} (doWrite : Bool) (hu : u.header = [] ∨ u.header = conf.header) :
    HeaderOf conf (ngxStreamProxyProcess conf env s u doWrite) := by
  rw [ngxStreamProxyProcess]
  split
  · exact headerOf_some rfl hu
  · rename_i u' hwrite
    have hheader : u'.header = u.header := by
      split at hwrite
      · exact processWrite_header hwrite
      · cases hwrite
        rfl
    dsimp only
    split
    · exact headerOf_some (testFinalize_upstream _ _) (hheader ▸ hu)
    · split
      · exact headerOf_some rfl (Or.inl rfl)
      · rename_i hsecond
        exact headerOf_some (testFinalize_upstream _ _) (Or.inl (processWrite_header hsecond))

theorem connect_header {s : Session} {u : Upstream} (hu : u.header = [] ∨ u.header = conf.header) :
    HeaderOf conf (ngxStreamProxyInitUpstream conf env s u) ∧ HeaderOf conf (ngxStreamProxyConnect conf env s u) := by
  have hinit : HeaderOf conf (ngxStreamProxyInitUpstream conf env s u) := by
    rw [ngxStreamProxyInitUpstream]
    refine process_header true ?_
    rw [Upstream.addHeader]
    split
    · exact Or.inr rfl
    · exact hu
  refine ⟨hinit, ?_⟩
  rw [ngxStreamProxyConnect]
  split
  · exact headerOf_some rfl hu
  · exact hinit

theorem handler_header (s : Session) : HeaderOf conf (ngxStreamProxyHandler conf env s) := by
  rw [ngxStreamProxyHandler]
  split
  · dsimp only
    split
    · exact headerOf_some rfl (Or.inl rfl)
    · exact (connect_header (Or.inl rfl)).2
  · exact headerOf_some rfl (Or.inl rfl)

theorem runPhases_header (fuel : ℕ) {s : Session} (hs : HeaderOf conf s) :
    HeaderOf conf (ngxStreamCoreRunPhases hmacSha1 conf env fuel s) := by
  induction fuel generalizing s with
  | zero => exact hs
  | succ fuel ih =>
    rw [ngxStreamCoreRunPhases]
    split
    · exact hs
    · exact handler_header s
    · rename_i handler next _
      have hrun : (handler.run hmacSha1 conf env s).2.upstream = s.upstream := by
        cases handler with
        | verdict v => rfl
        | ssl => rfl
        | probe =>
          show (ngxStreamProbeHandler hmacSha1 conf env s).2.upstream = _
          rw [ngxStreamProbeHandler]
          split
          · rfl
          · split
            · dsimp only
              split
              · rfl
              · split <;> rfl
            · rfl
      have hnext : ∀ t : Session, t.upstream = (handler.run hmacSha1 conf env s).2.upstream → HeaderOf conf t :=
        fun t ht u hu => hs u (hrun ▸ ht ▸ hu)
      dsimp only
      split
      · exact ih (hnext _ rfl)
      · exact ih (hnext _ rfl)
      · exact hnext _ rfl
      · exact hnext _ rfl

theorem readHandler_header {s : Session} (hs : HeaderOf conf s) : HeaderOf conf (readHandler hmacSha1 conf env s) := by
  rw [readHandler]
  split
  · exact runPhases_header _ hs
  · rename_i u hu
    rw [ngxStreamProxyDownstreamHandler]
    split
    · exact hs
    · exact process_header false (hs u hu)

theorem upstreamEvent_header {s : Session} {u : Upstream} (hu : s.upstream = some u) (hs : HeaderOf conf s) (event : Event) :
    HeaderOf conf (upstreamEvent conf s u event) := by
  have hheader := hs u hu
  cases event with
  | resolved env =>
    rw [upstreamEvent]
    split
    · exact hs
    · split
      · exact (connect_header hheader).2
      · exact hs
  | handshaked env =>
    rw [upstreamEvent]
    split
    · exact hs
    · split
      · refine (connect_header ?_).1
        split <;> exact hheader
      · exact hs
  | nextUpstream env =>
    rw [upstreamEvent]
    split
    · exact hs
    · split
      · refine (connect_header ?_).2
        exact hheader
      · exact hs
  | writable env =>
    rw [upstreamEvent]
    split
    · exact process_header true hheader
    · exact hs
  | response n =>
    rw [upstreamEvent]
    split
    · exact headerOf_some (testFinalize_upstream _ _) hheader
    · exact hs
  | _ => exact hs

theorem step_header {s : Session} (hs : HeaderOf conf s) (event : Event) : HeaderOf conf (step hmacSha1 conf s event) := by
  have hother : HeaderOf conf (if s.life = .live then s.upstream.elim s fun u => upstreamEvent conf s u event else s) := by
    split
    · cases hup : s.upstream with
      | none => exact hs
      | some u => exact upstreamEvent_header hup hs event
    · exact hs
  cases event with
  | datagram d env =>
    show HeaderOf conf (ngxEventRecvmsg hmacSha1 conf s d env)
    rw [ngxEventRecvmsg]
    split
    · split
      · exact readHandler_header hs
      · exact hs
    · split
      · exact @readHandler_header hmacSha1 conf env _ hs
      · exact hs
    · exact hs
  | expired env =>
    rw [step]
    split
    · exact readHandler_header hs
    · exact hs
  | posted env =>
    rw [step]
    split
    · exact readHandler_header hs
    · exact hs
  | finalize =>
    rw [step]
    split
    · exact hs
    · exact hs
  | _ => exact hother

variable (hmacSha1 conf) in
theorem run_header (es : List Event) : HeaderOf conf (run (step hmacSha1 conf) start es) :=
  run_induction (I := HeaderOf conf) (fun _ event hs => step_header hs event) (fun _ hu => by cases hu) es

/-! ### What is forwarded -/

variable (conf env) in
/-- `ngx_stream_proxy_process` forwards at most the datagram that the connection holds. -/
theorem process_log (s : Session) {u : Upstream} (hlast : u.last = 0) (doWrite : Bool) :
    (ngxStreamProxyProcess conf env s u doWrite).log = s.log ∨
      ∃ d, s.conn.udp.join = some d ∧
        (ngxStreamProxyProcess conf env s u doWrite).log = s.log ++ [.forward (u.header ++ d.take conf.bufferSize)] := by
  have htest : ∀ s u, (ngxStreamProxyTestFinalize conf s u).log = s.log := fun s u => by
    rw [testFinalize_eq]
    split <;> rfl
  rw [ngxStreamProxyProcess]
  split
  · exact Or.inl rfl
  · rename_i u' hwrite
    have hsame : u'.header = u.header ∧ u'.last = 0 := by
      split at hwrite
      · refine ⟨processWrite_header hwrite, ?_⟩
        unfold processWrite at hwrite
        split at hwrite
        · split at hwrite
          · cases hwrite
            rfl
          · cases hwrite
            exact hlast
          · cases hwrite
        · cases hwrite
          exact hlast
      · cases hwrite
        exact ⟨rfl, hlast⟩
    dsimp only
    split
    · exact Or.inl (htest _ _)
    · rename_i d hread
      refine Or.inr ⟨d, ?_, ?_⟩
      · split at hread
        · exact hread
        · cases hread
      · rw [← hsame.1, hsame.2, Nat.sub_zero]
        split
        · rfl
        · exact htest _ _

theorem copyOf_take {d : List UInt8} (hd : d.length = 24) : CopyOf conf d (conf.header ++ d.take conf.bufferSize) := by
  by_cases hsize : conf.bufferSize < 24
  · exact Or.inr ⟨hsize, rfl⟩
  · rw [List.take_of_length_le (by omega)]
    exact Or.inl rfl

/-- The first datagram of the proxy is forwarded once, behind the header. -/
theorem initUpstream_log {s : Session} {d : List UInt8} (hs : Holds s.conn d) (hd : d.length = 24) :
    ∃ ds : List (List UInt8), (ngxStreamProxyInitUpstream conf env s .start).log = s.log ++ ds.map Act.forward ∧
      ∀ f ∈ ds, CopyOf conf d f := by
  rw [ngxStreamProxyInitUpstream]
  rcases hs with hconn | hconn
  · rcases process_log conf env { s with
      log := s.log ++ s.conn.buffer.toList.map fun d => .forward (conf.header ++ d) }
      (u := { Upstream.addHeader { Upstream.start with
        queue := s.conn.buffer.toList ++ Upstream.start.queue
        pending := Upstream.start.pending || s.conn.buffer.isSome } conf.header with stage := .connected })
      (by rw [hconn]; rfl) true with hlog | ⟨d', hd', -⟩
    · refine ⟨[conf.header ++ d], ?_, fun f hf => Or.inl (List.mem_singleton.mp hf)⟩
      rw [hlog, hconn]
      rfl
    · rw [hconn] at hd'
      cases hd'
  · rcases process_log conf env { s with
      log := s.log ++ s.conn.buffer.toList.map fun d => .forward (conf.header ++ d) }
      (u := { Upstream.addHeader { Upstream.start with
        queue := s.conn.buffer.toList ++ Upstream.start.queue
        pending := Upstream.start.pending || s.conn.buffer.isSome } conf.header with stage := .connected })
      (by rw [hconn]; rfl) true with hlog | ⟨d', hd', hlog⟩
    · refine ⟨[], ?_, fun f hf => absurd hf List.not_mem_nil⟩
      rw [hlog, hconn]
      rfl
    · rw [hconn] at hd'
      cases hd'
      refine ⟨[conf.header ++ d.take conf.bufferSize], ?_, fun f hf => ?_⟩
      · rw [hlog, hconn]
        show (s.log ++ []) ++ _ = _
        rw [List.append_nil]
        rfl
      · rw [List.mem_singleton.mp hf]
        exact copyOf_take hd

variable (conf env) in
theorem handler_log {s : Session} {d : List UInt8} (hs : Holds s.conn d) (hd : d.length = 24) :
    ∃ ds : List (List UInt8), (ngxStreamProxyHandler conf env s).log = s.log ++ ds.map Act.forward ∧
      ∀ f ∈ ds, CopyOf conf d f := by
  have hnone : ∃ ds : List (List UInt8), s.log = s.log ++ ds.map Act.forward ∧ ∀ f ∈ ds, CopyOf conf d f :=
    ⟨[], (List.append_nil _).symm, fun f hf => absurd hf List.not_mem_nil⟩
  rw [ngxStreamProxyHandler]
  split
  · dsimp only
    split
    · exact hnone
    · rw [ngxStreamProxyConnect]
      split
      · exact hnone
      · exact initUpstream_log (s := { s with posted := s.posted || s.ready }) hs hd
  · exact hnone

/-- A datagram that comes to the proxy is forwarded as far as there is room. -/
theorem process_datagram_log {s : Session} {u : Upstream} (hready : s.ready = true) {d : List UInt8}
    (hudp : s.conn.udp = some (some d)) : (ngxStreamProxyProcess conf env s u false).log = s.log ++
      if u.last < conf.bufferSize then [.forward (u.header ++ d.take (conf.bufferSize - u.last))] else [] := by
  have htest : ∀ s u, (ngxStreamProxyTestFinalize conf s u).log = s.log := fun s u => by
    rw [testFinalize_eq]
    split <;> rfl
  have hwrite : (if false then processWrite u env.first else some u) = some u := rfl
  by_cases hroom : u.last < conf.bufferSize
  · rw [if_pos hroom, process_read hwrite (Nat.sub_pos_of_lt hroom) hready hudp]
    cases processWrite (u.queueReceived (d.take (conf.bufferSize - u.last))) env.second with
    | none => rfl
    | some u' => exact htest _ _
  · rw [if_neg hroom, List.append_nil, process_idle hwrite fun h => absurd (Nat.lt_of_sub_pos h.1) hroom]
    exact htest _ _

/-! ### Probes in the probe phase -/

section Probe

variable {d : List UInt8}

variable (hmacSha1) in
theorem udpProbe_cases (h : IsUdpProbe d) (halloc : env.alloc .username = true) :
    (Absorbed hmacSha1 env d ∨ PassedOn hmacSha1 env d) ∧ probeAnswers hmacSha1 env d = [.reply (hop d)] ∧
      probeLeft hmacSha1 env d = hop d := by
  obtain ⟨hprobed, hleft⟩ := processProbe_udp hmacSha1 env h halloc
  refine ⟨?_, by rw [probeAnswers, hprobed]; rfl, hleft⟩
  by_cases httl : d.getD 6 0 ≤ 1
  · exact Or.inl ⟨_, hprobed, if_pos httl⟩
  · refine Or.inr ⟨_, hprobed, ?_⟩
    dsimp only
    rw [if_neg httl]
    decide

theorem handler_answered {s s' t : Session} (hd : IsUdpProbe d) (h : Holds s'.conn (hop d)) (hlog : s'.log = s.log ++ [.reply (hop d)])
    (ht : t.log = (ngxStreamProxyHandler conf env s').log)
    (hbuffer : t.conn.buffer = (ngxStreamProxyHandler conf env s').conn.buffer) : AnsweredFirst conf s t d := by
  have hlength : (hop d).length = 24 := by
    rw [hop, List.length_set, List.length_set]
    exact hd.1
  obtain ⟨ds, hds, hcopies⟩ := handler_log conf env h hlength
  refine ⟨⟨ds, ?_, hcopies⟩, fun b hb => ?_⟩
  · rw [ht, hds, hlog, List.append_assoc]
    rfl
  · rw [hbuffer, handler_proxied.buffer] at hb
    rcases h with hconn | hconn
    · rw [hconn] at hb
      exact (Option.some.inj hb).symm
    · rw [hconn] at hb
      cases hb

theorem clear_log (s : Session) : s.clear.log = s.log := rfl

theorem clear_buffer (s : Session) : s.clear.conn.buffer = s.conn.buffer := rfl

theorem start_answered (hprobe : conf.probeEnable = true) (haccepted : env.accepted = true)
    (hadmits : conf.admits = true) (h : IsUdpProbe d) (halloc : env.alloc .username = true) :
    AnsweredFirst conf start (step hmacSha1 conf start (.datagram d env)) d := by
  obtain ⟨hcases, hanswers, hleft⟩ := udpProbe_cases hmacSha1 h halloc
  rcases hcases with habsorbed | hpassed
  · rw [step_absorbed hprobe haccepted hadmits habsorbed, hanswers]
    exact ⟨⟨[], rfl, fun f hf => absurd hf List.not_mem_nil⟩, fun b hb => absurd hb (Option.not_mem_none b)⟩
  · rw [step_passedOn hprobe haccepted hadmits hpassed, hanswers, hleft]
    exact handler_answered h (Or.inl rfl) rfl rfl rfl

theorem waiting_answered (hprobe : conf.probeEnable = true) (log : List Act) (h : IsUdpProbe d)
    (halloc : env.alloc .username = true) :
    AnsweredFirst conf (waiting conf log) (step hmacSha1 conf (waiting conf log) (.datagram d env)) d := by
  obtain ⟨hcases, hanswers, hleft⟩ := udpProbe_cases hmacSha1 h halloc
  rcases hcases with habsorbed | hpassed
  · rw [step_waiting_absorbed hprobe log habsorbed, hanswers]
    exact ⟨⟨[], rfl, fun f hf => absurd hf List.not_mem_nil⟩, fun b hb => absurd hb (Option.not_mem_none b)⟩
  · rw [step_waiting_passedOn hprobe log hpassed, hanswers, hleft]
    have hholds : Holds (handedLater conf (log ++ [.reply (hop d)]) (hop d)).conn (hop d) := Or.inr rfl
    have hlog : (handedLater conf (log ++ [.reply (hop d)]) (hop d)).log =
        (waiting conf log).log ++ [.reply (hop d)] := rfl
    exact handler_answered h hholds hlog (clear_log _) (clear_buffer _)

/-- In the proxy a probe is any other datagram. -/
theorem proxied_unanswered {s : Session} (hlive : s.life = .live) (hudp : s.conn.udp.isSome = true)
    (hup : s.upstream.isSome = true) (htimedout : s.timedout = false) (hheader : HeaderOf conf s) :
    Unanswered conf s (step hmacSha1 conf s (.datagram d env)) d := by
  obtain ⟨u, hu⟩ := Option.isSome_iff_exists.mp hup
  refine ⟨u, hu, hheader u hu, ?_⟩
  show (ngxEventRecvmsg hmacSha1 conf s d env).log = _
  rw [ngxEventRecvmsg, hlive]
  dsimp only
  rw [if_pos hudp, readHandler, hu]
  dsimp only
  rw [ngxStreamProxyDownstreamHandler, htimedout, if_neg Bool.false_ne_true]
  exact process_datagram_log rfl rfl

end Probe

/-! ### Histories -/

/-- A session that has not ended is in the probe phase exactly as long as every datagram has been absorbed. -/
theorem history (hprobe : conf.probeEnable = true) (es : List Event) :
    (run (step hmacSha1 conf) start es).life = .closed ∨
      ((run (step hmacSha1 conf) start es = start ∨ ∃ log, run (step hmacSha1 conf) start es = waiting conf log) ∧
        ∀ d env, .datagram d env ∈ es → Absorbed hmacSha1 env d) ∨
      ((run (step hmacSha1 conf) start es).life = .live ∧
        (run (step hmacSha1 conf) start es).upstream.isSome = true ∧
        (run (step hmacSha1 conf) start es).timedout = false ∧
        ∃ d env, .datagram d env ∈ es ∧ ¬Absorbed hmacSha1 env d) := by
  have hcons : ∀ {es : List Event} {event : Event}, (∀ d env, .datagram d env ∈ es → Absorbed hmacSha1 env d) →
      (∀ d env, event = .datagram d env → Absorbed hmacSha1 env d) →
      ∀ d env, .datagram d env ∈ es ++ [event] → Absorbed hmacSha1 env d := by
    intro es event hes hevent d env hmem
    rcases List.mem_append.mp hmem with hmem | hmem
    · exact hes d env hmem
    · exact hevent d env (List.mem_singleton.mp hmem).symm
  induction es using List.reverseRecOn with
  | nil => exact Or.inr (Or.inl ⟨Or.inl rfl, fun d env h => absurd h List.not_mem_nil⟩)
  | append_singleton es event ih =>
      rw [run_append]
      show (step hmacSha1 conf (run (step hmacSha1 conf) start es) event).life = .closed ∨
        ((step hmacSha1 conf (run (step hmacSha1 conf) start es) event = start ∨
          ∃ log, step hmacSha1 conf (run (step hmacSha1 conf) start es) event = waiting conf log) ∧ _) ∨
        ((step hmacSha1 conf (run (step hmacSha1 conf) start es) event).life = .live ∧
          (step hmacSha1 conf (run (step hmacSha1 conf) start es) event).upstream.isSome = true ∧
          (step hmacSha1 conf (run (step hmacSha1 conf) start es) event).timedout = false ∧ _)
      generalize run (step hmacSha1 conf) start es = s at ih
      have hproxied : ∀ {s t : Session}, Proxied s t → s.life = .live → s.timedout = false →
          (∃ d env, .datagram d env ∈ es ++ [event] ∧ ¬Absorbed hmacSha1 env d) → t.life = .closed ∨
            t.life = .live ∧ t.upstream.isSome = true ∧ t.timedout = false ∧
              ∃ d env, .datagram d env ∈ es ++ [event] ∧ ¬Absorbed hmacSha1 env d := by
        intro s t ht hlive htimedout hpast
        rcases ht.state with ⟨hclosed, -⟩ | ⟨hlife, -, htimed⟩
        · exact Or.inl hclosed
        · exact Or.inr ⟨hlife.trans hlive, ht.upstream, htimed.trans htimedout, hpast⟩
      rcases ih with hclosed | ⟨hphase, hpast⟩ | ⟨hlive, hup, htimedout, d, env, hmem, hnot⟩
      · exact Or.inl (by rw [step_closed hclosed]; exact hclosed)
      · by_cases hdatagram : ∃ d env, event = .datagram d env
        · obtain ⟨d, env, rfl⟩ := hdatagram
          have hthis : ∀ h : PassedOn hmacSha1 env d, ∃ d' env', .datagram d' env' ∈ es ++ [.datagram d env] ∧
              ¬Absorbed hmacSha1 env' d' := fun h =>
            ⟨d, env, List.mem_append_right _ List.mem_cons_self, h.not_absorbed⟩
          rcases hphase with rfl | ⟨log, rfl⟩
          · by_cases hin : env.accepted = true ∧ conf.admits = true
            · obtain ⟨haccepted, hadmits⟩ := hin
              rcases probed_cases hmacSha1 env d with h | h | h
              · rw [step_absorbed hprobe haccepted hadmits h]
                refine Or.inr (Or.inl ⟨Or.inr ⟨_, rfl⟩, hcons hpast fun d' env' heq => ?_⟩)
                cases heq
                exact h
              · rw [step_passedOn hprobe haccepted hadmits h]
                exact (hproxied handler_proxied rfl rfl (hthis h)).imp_right Or.inr
              · obtain ⟨s, hrun, -⟩ := step_gone hprobe haccepted hadmits h
                exact Or.inl (by rw [hrun]; rfl)
            · obtain ⟨s, hrun, -⟩ := step_rejected hmacSha1 d hin
              exact Or.inl (by rw [hrun]; rfl)
          · rcases probed_cases hmacSha1 env d with h | h | h
            · rw [step_waiting_absorbed hprobe log h]
              refine Or.inr (Or.inl ⟨Or.inr ⟨_, rfl⟩, hcons hpast fun d' env' heq => ?_⟩)
              cases heq
              exact h
            · rw [step_waiting_passedOn hprobe log h]
              exact (hproxied handler_proxied rfl rfl (hthis h)).imp_right Or.inr
            · obtain ⟨s, hrun, -⟩ := step_waiting_gone hprobe log h
              exact Or.inl (by rw [hrun]; rfl)
        · have hother : ∀ d env, event ≠ .datagram d env := fun d env heq => hdatagram ⟨d, env, heq⟩
          have hkept := hcons hpast fun d env heq => absurd heq (hother d env)
          rcases hphase with rfl | ⟨log, rfl⟩
          · rw [step_start event hother]
            exact Or.inr (Or.inl ⟨Or.inl rfl, hkept⟩)
          · rcases step_waiting_other hmacSha1 conf log hother with hrun | ⟨s, hrun, -⟩
            · rw [hrun]
              exact Or.inr (Or.inl ⟨Or.inr ⟨log, rfl⟩, hkept⟩)
            · exact Or.inl (by rw [hrun]; rfl)
      · have hpast : ∃ d env, .datagram d env ∈ es ++ [event] ∧ ¬Absorbed hmacSha1 env d :=
          ⟨d, env, List.mem_append_left _ hmem, hnot⟩
        obtain ⟨t, ht, hrun | hrun⟩ := step_proxied hmacSha1 conf hlive hup event
        · rw [hrun]
          exact (hproxied ht hlive htimedout hpast).imp_right Or.inr
        · rw [hrun]
          exact (hproxied ht hlive htimedout hpast).imp_right Or.inr

end NginxDtls.ProbeSession
