import NginxDtls.ProbeStates

/-! The timer of the probe phase. `ngx_stream_probe_handler` starts it when it absorbs a probe, and no code on the way
to the proxy stops it, as `ngx_stream_core_preread_phase` does with its own; the proxy takes its expiry for an idle
session. -/

namespace NginxDtls.ProbeSession

open Run

variable {hmacSha1 : List UInt8 → List UInt8 → List UInt8} {conf : Conf} {env : Env}

/-- A session that has come to the proxy is not under the timer of the probe phase. -/
def Session.TimerGone (s : Session) : Prop := s.upstream.isSome = true → s.timerSet = false

/-- More than that, an expiry of this timer does nothing to it. -/
def Session.Unharmed (hmacSha1 : List UInt8 → List UInt8 → List UInt8) (conf : Conf) (s : Session) : Prop :=
  s.upstream.isSome = true → s.timerSet = false ∧ ∀ env, step hmacSha1 conf s (.expired env) = s

/-- The proxy ends the session in the call that would pass on its first datagram: it lacks something, the upstream is
connected at once and a write fails, or nothing more is expected after this datagram. -/
def EndsAtOnce (conf : Conf) (env : Env) : Prop :=
  env.proxied = false ∨ conf.resolve = false ∧ conf.ssl = false ∧
    if 0 < conf.bufferSize then
      env.second = .error ∨ env.second = .all ∧ conf.requests ≤ 2 ∧ conf.responses = some 0
    else conf.requests ≤ 1 ∧ conf.responses = some 0

/-- No datagram passes the probe phase while its timer runs, or the session ends with it. -/
def NoneUnderTimer (hmacSha1 : List UInt8 → List UInt8 → List UInt8) (conf : Conf) (s : Session) (event : Event) :
    Prop :=
  ∀ d env, event = .datagram d env → s.timerSet = true → PassedOn hmacSha1 env d → EndsAtOnce conf env

/-! ### The way to the proxy -/

/-- An upstream that is connected, with the header in front of the first datagram. -/
def Upstream.opened (header : List UInt8) : Upstream where
  stage := .connected
  requests := 1
  responses := 0
  last := 0
  header := header
  queue := []
  pending := false

/-- A session that waited, in the proxy. -/
def proxiedLater (conf : Conf) (log : List Act) (d : List UInt8) : Session :=
  { handedLater conf log d with posted := true }

/-- A session that waited and whose upstream is connected at once. -/
theorem handler_later (hproxied : env.proxied = true) (hresolve : conf.resolve = false) (hssl : conf.ssl = false)
    (log : List Act) (d : List UInt8) :
    ngxStreamProxyHandler conf env (handedLater conf log d) =
      ngxStreamProxyProcess conf env (proxiedLater conf log d) (.opened conf.header) true := by
  rw [ngxStreamProxyHandler, if_pos hproxied]
  dsimp only
  rw [hresolve, if_neg Bool.false_ne_true, ngxStreamProxyConnect, hssl, if_neg Bool.false_ne_true,
    ngxStreamProxyInitUpstream]
  show ngxStreamProxyProcess conf env (proxiedLater conf (log ++ []) d) _ true = _
  rw [List.append_nil]
  rfl

theorem write_opened (header : List UInt8) :
    (if true then processWrite (.opened header) env.first else some (.opened header)) = some (.opened header) := by
  rw [if_pos rfl]
  exact processWrite_of_not_pending rfl env.first

/-- It reads its datagram. -/
theorem handler_later_read (hproxied : env.proxied = true) (hresolve : conf.resolve = false) (hssl : conf.ssl = false)
    (hsize : 0 < conf.bufferSize) (log : List Act) (d : List UInt8) :
    ngxStreamProxyHandler conf env (handedLater conf log d) =
      (processWrite ((Upstream.opened conf.header).queueReceived (d.take conf.bufferSize)) env.second).elim
        (Session.finalize { (proxiedLater conf log d).read (conf.header ++ d.take conf.bufferSize) with
          upstream := some ((Upstream.opened conf.header).queueReceived (d.take conf.bufferSize)) })
        (ngxStreamProxyTestFinalize conf
          ((proxiedLater conf log d).read (conf.header ++ d.take conf.bufferSize))) := by
  rw [handler_later hproxied hresolve hssl]
  exact @process_read _ _ _ _ (.opened conf.header) _ (write_opened conf.header) hsize rfl _ rfl

/-- The buffer of the proxy has no place for it. -/
theorem handler_later_full (hproxied : env.proxied = true) (hresolve : conf.resolve = false) (hssl : conf.ssl = false)
    (hsize : ¬0 < conf.bufferSize) (log : List Act) (d : List UInt8) :
    ngxStreamProxyHandler conf env (handedLater conf log d) =
      ngxStreamProxyTestFinalize conf (proxiedLater conf log d) (.opened conf.header) := by
  rw [handler_later hproxied hresolve hssl]
  exact process_idle (write_opened conf.header) fun h => absurd h.1 hsize

/-- The test at the end of `ngx_stream_proxy_process` stops the timer only with the session. -/
theorem testFinalize_timer {s : Session} {u : Upstream} (h : s.timerSet = true) :
    (ngxStreamProxyTestFinalize conf s u).timerSet = false ↔ u.finishes conf = true := by
  rw [testFinalize_eq]
  cases u.finishes conf with
  | false =>
      rw [if_neg Bool.false_ne_true]
      exact iff_of_false (by rw [Session.counted, h]; decide) Bool.false_ne_true
  | true => exact iff_of_true rfl rfl

/-- Without responses yet, everything has come that is expected only if nothing is. -/
theorem finishes_iff {u : Upstream} (hrequests : 0 < u.requests) (hresponses : u.responses = 0) :
    u.finishes conf = true ↔ (conf.requests = 0 ∨ conf.requests ≤ u.requests) ∧ u.stage = .connected ∧
      u.pending = false ∧ conf.responses = some 0 := by
  rw [Upstream.finishes, Bool.and_eq_true, decide_eq_true_eq, hresponses, and_assoc, and_assoc]
  refine and_congr_right fun _ => and_congr_right fun _ => and_congr_right fun _ => ?_
  cases conf.responses with
  | none => simp
  | some responses =>
      rw [Option.any_some, decide_eq_true_eq, Nat.le_zero, Nat.mul_eq_zero, Option.some.injEq]
      omega

/-- The session keeps its timer unless it ends. -/
theorem handler_later_timer (log : List Act) (d : List UInt8) :
    (ngxStreamProxyHandler conf env (handedLater conf log d)).timerSet = false ↔ EndsAtOnce conf env := by
  rw [EndsAtOnce]
  cases hproxied : env.proxied with
  | false =>
      rw [ngxStreamProxyHandler, hproxied]
      exact iff_of_true rfl (Or.inl rfl)
  | true =>
      rw [or_iff_right Bool.true_eq_false.mp]
      cases hresolve : conf.resolve with
      | true =>
          rw [ngxStreamProxyHandler, hproxied, hresolve]
          exact iff_of_false Bool.true_eq_false.mp fun h => absurd h.1 Bool.true_eq_false.mp
      | false =>
          cases hssl : conf.ssl with
          | true =>
              rw [ngxStreamProxyHandler, hproxied, hresolve, if_pos rfl]
              dsimp only
              rw [if_neg Bool.false_ne_true, ngxStreamProxyConnect, hssl]
              exact iff_of_false Bool.true_eq_false.mp fun h => absurd h.2.1 Bool.true_eq_false.mp
          | false =>
              simp only [true_and]
              by_cases hsize : 0 < conf.bufferSize
              · rw [if_pos hsize, handler_later_read hproxied hresolve hssl hsize]
                obtain ⟨hall, hagain, herror⟩ := processWrite_pending
                  (u := (Upstream.opened conf.header).queueReceived (d.take conf.bufferSize)) rfl rfl
                cases env.second with
                | all =>
                    have hcount : conf.requests = 0 ∨ conf.requests ≤ 2 ↔ conf.requests ≤ 2 := by omega
                    rw [hall, Option.elim_some, testFinalize_timer rfl, finishes_iff (Nat.succ_pos 1) rfl]
                    simp [Upstream.queueReceived, Upstream.opened, hcount]
                | again =>
                    rw [hagain, Option.elim_some, testFinalize_timer rfl, finishes_iff (Nat.succ_pos 1) rfl]
                    simp [Upstream.queueReceived]
                | error =>
                    rw [herror, Option.elim_none]
                    exact iff_of_true rfl (Or.inl rfl)
              · rw [if_neg hsize, handler_later_full hproxied hresolve hssl hsize, testFinalize_timer rfl,
                  finishes_iff Nat.one_pos rfl]
                have hcount : conf.requests = 0 ∨ conf.requests ≤ 1 ↔ conf.requests ≤ 1 := by omega
                simp [Upstream.opened, hcount]

/-! ### Runs -/

theorem clear_timerSet (s : Session) : s.clear.timerSet = s.timerSet := rfl

/-- A session that has come to the proxy without the timer does not get it again. -/
theorem Proxied.timerGone {s t : Session} (h : Proxied s t) (htimer : s.timerSet = false) : t.timerSet = false := by
  rcases h.state with ⟨-, hgone⟩ | ⟨-, hsame, -⟩
  · exact hgone
  · rw [hsame, htimer]

theorem step_timerGone (hprobe : conf.probeEnable = true) {s : Session} (h : Reached conf s) (hgone : s.TimerGone)
    {event : Event} (hok : NoneUnderTimer hmacSha1 conf s event) : (step hmacSha1 conf s event).TimerGone := by
  intro hup
  cases h with
  | fresh =>
      by_cases hdatagram : ∃ d env, event = .datagram d env
      · obtain ⟨d, env, rfl⟩ := hdatagram
        by_cases hin : env.accepted = true ∧ conf.admits = true
        · obtain ⟨haccepted, hadmits⟩ := hin
          rcases probed_cases hmacSha1 env d with h | h | h
          · rw [step_absorbed hprobe haccepted hadmits h] at hup
            exact absurd hup Bool.false_ne_true
          · rw [step_passedOn hprobe haccepted hadmits h]
            exact handler_proxied.timerGone rfl
          · obtain ⟨s, hrun, -⟩ := step_gone hprobe haccepted hadmits h
            rw [hrun]
            rfl
        · obtain ⟨s, hrun, -⟩ := step_rejected hmacSha1 d hin
          rw [hrun]
          rfl
      · rw [step_start event fun d env heq => hdatagram ⟨d, env, heq⟩]
        rfl
  | waiting log =>
      by_cases hdatagram : ∃ d env, event = .datagram d env
      · obtain ⟨d, env, rfl⟩ := hdatagram
        rcases probed_cases hmacSha1 env d with h | h | h
        · rw [step_waiting_absorbed hprobe log h] at hup
          exact absurd hup Bool.false_ne_true
        · rw [step_waiting_passedOn hprobe log h, clear_timerSet]
          exact (handler_later_timer _ _).mpr (hok d env rfl rfl h)
        · obtain ⟨s, hrun, -⟩ := step_waiting_gone hprobe log h
          rw [hrun]
          rfl
      · rcases step_waiting_other hmacSha1 conf log
          (fun d env heq => hdatagram ⟨d, env, heq⟩) with hrun | ⟨s, hrun, -⟩
        · rw [hrun] at hup
          exact absurd hup Bool.false_ne_true
        · rw [hrun]
          rfl
  | proxied live upstream timedout =>
      obtain ⟨t, ht, hrun | hrun⟩ := step_proxied hmacSha1 conf live upstream event
      · rw [hrun]
        exact ht.timerGone (hgone upstream)
      · rw [hrun, clear_timerSet]
        exact ht.timerGone (hgone upstream)
  | closed closed timerSet =>
      rw [step_closed closed]
      exact timerSet

theorem noneUnderTimer_of_timerGone (hprobe : conf.probeEnable = true) {s : Session} (h : Reached conf s)
    (hgone : s.TimerGone) {event : Event} (hstep : (step hmacSha1 conf s event).TimerGone) :
    NoneUnderTimer hmacSha1 conf s event := by
  rintro d env rfl htimer hpassed
  cases h with
  | fresh => exact absurd htimer Bool.false_ne_true
  | waiting log =>
      rw [step_waiting_passedOn hprobe log hpassed] at hstep
      exact (handler_later_timer _ _).mp (hstep handler_proxied.upstream)
  | proxied live upstream timedout =>
      rw [hgone upstream] at htimer
      cases htimer
  | closed closed timerSet =>
      rw [timerSet] at htimer
      cases htimer

theorem unharmed_iff {s : Session} : s.Unharmed hmacSha1 conf ↔ s.TimerGone := by
  refine ⟨fun h hup => (h hup).1, fun h hup => ⟨h hup, fun env => ?_⟩⟩
  rw [step, if_neg]
  rw [h hup]
  exact fun hc => Bool.false_ne_true hc.2

end NginxDtls.ProbeSession
