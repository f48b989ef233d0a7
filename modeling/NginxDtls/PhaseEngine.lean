import Mathlib.Tactic

/-! The phases of a stream session: `ngx_stream_init_phase_handlers` lays the handlers of all phases out in one array,
which `ngx_stream_core_run_phases` goes through with the three checkers. What handlers do to the connection, and what
the calls of the system give, is left to an environment. -/

namespace NginxDtls.PhaseEngine

variable {H W : Type}

/-- `ngx_stream_phases` -/
inductive StreamPhase where
  | postAccept
  | preaccess
  | access
  | probe
  | ssl
  | preread
  | content
  | log
  deriving DecidableEq, Repr

/-- The phases below `NGX_STREAM_LOG_PHASE` -/
def phasesBelowLog : List StreamPhase := [.postAccept, .preaccess, .access, .probe, .ssl, .preread, .content]

/-- `ngx_stream_phase_handler_pt` -/
inductive Checker where
  | generic
  | preread
  | content
  deriving DecidableEq, Repr

/-- `ngx_stream_phase_handler_t`; the entry of the content phase has no handler. -/
structure PhaseHandler (H : Type) where
  checker : Checker
  handler : Option H
  next : ℕ

/-! ### The array -/

/-- The checker that the switch over the phase chooses. -/
def phaseChecker : StreamPhase → Checker
  | .preread => .preread
  | .content => .content
  | _ => .generic

/-- The loop over the phases: the entries at `ph`, where `n` is the index. -/
def initLoop (handlers : StreamPhase → List H) : List StreamPhase → ℕ → List (PhaseHandler H)
  | [], _ => []
  | i :: phases, n =>
    if i = .content then { checker := .content, handler := none, next := 0 } :: initLoop handlers phases (n + 1)
    else
      let n := n + (handlers i).length
      ((handlers i).reverse.map fun h => { checker := phaseChecker i, handler := some h, next := n }) ++
        initLoop handlers phases n

/-- `ngx_stream_init_phase_handlers`, `none` for `NGX_ERROR`. -/
def ngxStreamInitPhaseHandlers (memory : Bool) (handlers : StreamPhase → List H) : Option (List (PhaseHandler H)) :=
  if memory then some (initLoop handlers phasesBelowLog 0) else none

/-! ### The checkers -/

/-- What a handler returns: one of the codes the checkers know, or another one. -/
inductive HandlerRc where
  | ok
  | declined
  | again
  | done
  | error
  | other (rc : ℤ)
  deriving DecidableEq, Repr

/-- `NGX_STREAM_OK` -/
def streamOk : ℤ := 200

/-- `NGX_STREAM_BAD_REQUEST` -/
def streamBadRequest : ℤ := 400

/-- `NGX_STREAM_INTERNAL_SERVER_ERROR` -/
def streamInternalServerError : ℤ := 500

/-- What `c->recv` returns. -/
inductive Received where
  | data (n : ℕ)
  | closed
  | again
  | error

/-- What is done to a session, in order: a handler is called and returns, with the index of its entry; the content
handler is called; `ngx_tcp_nodelay` fails; the session is finalized. -/
inductive Event (H : Type) where
  | call (k : ℕ) (h : H) (rc : HandlerRc)
  | content
  | nodelayFailed
  | finalized (rc : ℤ)
  deriving DecidableEq

/-- What the engine meets: the handlers, the flags of `c->read`, the room in `c->buffer`, `none` without one, and the
calls. `setsNodelay` is `c->type == SOCK_STREAM && cscf->tcp_nodelay`. -/
structure Env (H W : Type) where
  handler : H → W → HandlerRc × W
  timedout : W → Bool
  timerSet : W → Bool
  eof : W → Bool
  ready : W → Bool
  room : W → Option ℕ
  createTempBuf : W → Bool × W
  recv : W → ℕ → Received × W
  advanceLast : W → ℕ → W
  handleReadEvent : W → Bool × W
  addTimer : W → W
  delTimer : W → W
  setReadHandler : W → W
  setsNodelay : W → Bool
  ngxTcpNodelay : W → Bool × W
  contentHandler : W → W
  finalizeSession : W → ℤ → W

/-- A session with its connection; `log` has no part in what happens. -/
structure Session (H W : Type) where
  phaseHandler : ℕ
  world : W
  log : List (Event H)

/-- What a checker returns, `NGX_OK` or `NGX_AGAIN`. It can also stay in its loop for longer than is looked at, or call
a null pointer. -/
inductive CheckerRc where
  | ok
  | again
  | cut
  | undefined
  deriving DecidableEq, Repr

variable (env : Env H W)

def Session.withWorld (s : Session H W) (w : W) : Session H W := { s with world := w }

def Session.record (s : Session H W) (e : Event H) : Session H W := { s with log := s.log ++ [e] }

/-- `ph->handler(s)` -/
def callHandler (h : H) (s : Session H W) : HandlerRc × Session H W :=
  let (rc, w) := env.handler h s.world
  (rc, (s.withWorld w).record (.call s.phaseHandler h rc))

def ngxStreamFinalizeSession (s : Session H W) (rc : ℤ) : Session H W :=
  (s.withWorld (env.finalizeSession s.world rc)).record (.finalized rc)

/-- The end of the generic and of the preread checker. -/
def passOn (ph : PhaseHandler H) (rc : HandlerRc) (s : Session H W) : CheckerRc × Session H W :=
  match rc with
  | .ok => (.again, { s with phaseHandler := ph.next })
  | .declined => (.again, { s with phaseHandler := s.phaseHandler + 1 })
  | .again => (.ok, s)
  | .done => (.ok, s)
  | .error => (.ok, ngxStreamFinalizeSession env s streamInternalServerError)
  | .other rc => (.ok, ngxStreamFinalizeSession env s rc)

def ngxStreamCoreGenericPhase (ph : PhaseHandler H) (h : H) (s : Session H W) : CheckerRc × Session H W :=
  let (rc, s) := callHandler env h s
  passOn env ph rc s

/-- `c->buffer` is there, or is created. -/
def ensureBuffer (s : Session H W) : Option (ℕ × Session H W) :=
  match env.room s.world with
  | some size => some (size, s)
  | none =>
    let (created, w) := env.createTempBuf s.world
    match created, env.room w with
    | true, some size => some (size, s.withWorld w)
    | _, _ => none

/-- The loop of the preread checker up to the handler: the code it breaks with, or `none` if there are more data. -/
def prereadRecv (s : Session H W) : Option HandlerRc × Session H W :=
  match ensureBuffer env s with
  | none => (some .error, s)
  | some (size, s) =>
    if size = 0 then (some (.other streamBadRequest), s)
    else if env.eof s.world then (some (.other streamOk), s)
    else if !env.ready s.world then (some .again, s)
    else
      let (n, w) := env.recv s.world size
      let s := s.withWorld w
      match n with
      | .error => (some (.other streamOk), s)
      | .closed => (some (.other streamOk), s)
      | .again => (some .again, s)
      | .data n => (none, s.withWorld (env.advanceLast s.world n))

/-- The loop `while (rc == NGX_AGAIN)`, looked at for `fuel` rounds. -/
def prereadLoop (h : H) : ℕ → HandlerRc → Session H W → Option HandlerRc × Session H W
  | fuel, rc, s =>
    if rc ≠ .again then (some rc, s)
    else
      match fuel with
      | 0 => (none, s)
      | fuel + 1 =>
        match prereadRecv env s with
        | (some rc, s) => (some rc, s)
        | (none, s) =>
          let (rc, s) := callHandler env h s
          prereadLoop h fuel rc s

/-- The code the loop of the preread checker begins with. -/
def prereadStart (h : H) (s : Session H W) : HandlerRc × Session H W :=
  if env.timedout s.world then (.other streamOk, s)
  else if env.timerSet s.world then (.again, s)
  else callHandler env h s

/-- The branch `rc == NGX_AGAIN` behind the loop. -/
def prereadWait (s : Session H W) : CheckerRc × Session H W :=
  let (handled, w) := env.handleReadEvent s.world
  let s := s.withWorld w
  if !handled then (.ok, ngxStreamFinalizeSession env s streamInternalServerError)
  else
    let s := if env.timerSet s.world then s else s.withWorld (env.addTimer s.world)
    (.ok, s.withWorld (env.setReadHandler s.world))

def ngxStreamCorePrereadPhase (fuel : ℕ) (ph : PhaseHandler H) (h : H) (s : Session H W) : CheckerRc × Session H W :=
  let (rc, s) := prereadStart env h s
  match prereadLoop env h fuel rc s with
  | (none, s) => (.cut, s)
  | (some rc, s) =>
    if rc = .again then prereadWait env s
    else
      let s := if env.timerSet s.world then s.withWorld (env.delTimer s.world) else s
      passOn env ph rc s

def ngxStreamCoreContentPhase (s : Session H W) : CheckerRc × Session H W :=
  let (nodelay, w) := if env.setsNodelay s.world then env.ngxTcpNodelay s.world else (true, s.world)
  let s := s.withWorld w
  if !nodelay then (.ok, ngxStreamFinalizeSession env (s.record .nodelayFailed) streamInternalServerError)
  else (.ok, (s.withWorld (env.contentHandler s.world)).record .content)

/-- `ph[s->phase_handler].checker(s, &ph[s->phase_handler])` -/
def callChecker (fuel : ℕ) (ph : PhaseHandler H) (s : Session H W) : CheckerRc × Session H W :=
  match ph.checker, ph.handler with
  | .content, _ => ngxStreamCoreContentPhase env s
  | .generic, some h => ngxStreamCoreGenericPhase env ph h s
  | .preread, some h => ngxStreamCorePrereadPhase env fuel ph h s
  | _, none => (.undefined, s)

/-- The loop of `ngx_stream_core_run_phases`, which ends at the null pointer behind the array. -/
def runLoop (fuel : ℕ) (handlers : List (PhaseHandler H)) : ℕ → Session H W → CheckerRc × Session H W
  | 0, s => (.cut, s)
  | rounds + 1, s =>
    match handlers[s.phaseHandler]? with
    | none => if s.phaseHandler = handlers.length then (.ok, s) else (.undefined, s)
    | some ph =>
      match callChecker env fuel ph s with
      | (.again, s) => runLoop fuel handlers rounds s
      | (rc, s) => (rc, s)

/-- `ngx_stream_core_run_phases`. Every round moves on in the array, so that there are no more rounds than entries. -/
def ngxStreamCoreRunPhases (fuel : ℕ) (handlers : List (PhaseHandler H)) (s : Session H W) : CheckerRc × Session H W :=
  runLoop env fuel handlers (handlers.length + 1) s

/-! ### The order of the handlers -/

/-- The handlers in the order of their phases, and in a phase the last one registered first. -/
def order (handlers : StreamPhase → List H) (phases : List StreamPhase) : List (StreamPhase × H) :=
  phases.flatMap fun i => (handlers i).reverse.map fun h => (i, h)

/-- The phase of a handler. -/
def phaseAt (l : List (StreamPhase × H)) (k : ℕ) : Option StreamPhase := l[k]?.map Prod.fst

/-- `k'` is the first handler of the next phase that has one, or behind all handlers. -/
structure NextPhase (l : List (StreamPhase × H)) (k k' : ℕ) : Prop where
  lt : k < k'
  le : k' ≤ l.length
  same : ∀ j, k ≤ j → j < k' → phaseAt l j = phaseAt l k
  changed : k' < l.length → phaseAt l k' ≠ phaseAt l k

/-- The entry for a handler. -/
structure EntryOf (l : List (StreamPhase × H)) (k n : ℕ) (ph : PhaseHandler H) : Prop where
  handler : ∃ i h, l[k]? = some (i, h) ∧ ph.checker = phaseChecker i ∧ ph.handler = some h
  next : ∃ k', NextPhase l k k' ∧ ph.next = n + k'

theorem phaseAt_append_right {l l' : List (StreamPhase × H)} {k : ℕ} (h : l.length ≤ k) :
    phaseAt (l ++ l') k = phaseAt l' (k - l.length) := by
  rw [phaseAt, phaseAt, List.getElem?_append_right h]

theorem NextPhase.shift {l l' : List (StreamPhase × H)} {k k' : ℕ} (h : NextPhase l' k k') :
    NextPhase (l ++ l') (l.length + k) (l.length + k') where
  lt := Nat.add_lt_add_left h.lt _
  le := by
    rw [List.length_append]
    exact Nat.add_le_add_left h.le _
  same j hle hlt := by
    rw [phaseAt_append_right (by omega), phaseAt_append_right (by omega), Nat.add_sub_cancel_left]
    exact h.same (j - l.length) (by omega) (by omega)
  changed hlt := by
    rw [phaseAt_append_right (by omega), phaseAt_append_right (by omega), Nat.add_sub_cancel_left,
      Nat.add_sub_cancel_left]
    rw [List.length_append] at hlt
    exact h.changed (by omega)

/-- The handlers of one phase. -/
theorem nextPhase_front {i : StreamPhase} {l l' : List (StreamPhase × H)} (hl : ∀ e ∈ l, e.1 = i)
    (hl' : ∀ e ∈ l', e.1 ≠ i) {k : ℕ} (hk : k < l.length) : NextPhase (l ++ l') k l.length := by
  have hfront : ∀ j, j < l.length → phaseAt (l ++ l') j = some i := by
    intro j hj
    rw [phaseAt, List.getElem?_append_left hj, List.getElem?_eq_getElem hj, Option.map_some,
      hl _ (List.getElem_mem hj)]
  refine ⟨hk, by simp, fun j _ hj => by rw [hfront j hj, hfront k hk], fun hlt heq => ?_⟩
  rw [hfront k hk, phaseAt_append_right le_rfl, Nat.sub_self, phaseAt] at heq
  obtain ⟨e, he, hi⟩ := Option.map_eq_some_iff.1 heq
  exact hl' e (List.mem_of_getElem? he) hi

theorem order_ne {handlers : StreamPhase → List H} {phases : List StreamPhase} {i : StreamPhase} (hi : i ∉ phases) :
    ∀ e ∈ order handlers phases, e.1 ≠ i := by
  intro e he heq
  obtain ⟨i', hi', he⟩ := List.mem_flatMap.1 he
  obtain ⟨h, -, rfl⟩ := List.mem_map.1 he
  exact hi (heq ▸ hi')

/-- The array has one entry for every handler, with the index of the next phase, and ends with the content phase. -/
theorem initLoop_spec (handlers : StreamPhase → List H) {phases : List StreamPhase} (hnodup : phases.Nodup)
    (hcontent : StreamPhase.content ∉ phases) (n : ℕ) :
    ∃ entries, initLoop handlers (phases ++ [.content]) n =
        entries ++ [{ checker := .content, handler := none, next := 0 }] ∧
      entries.length = (order handlers phases).length ∧
      ∀ k ph, entries[k]? = some ph → EntryOf (order handlers phases) k n ph := by
  induction phases generalizing n with
  | nil => exact ⟨[], rfl, rfl, by simp⟩
  | cons i phases ih =>
      rw [List.nodup_cons] at hnodup
      rw [List.mem_cons, not_or] at hcontent
      obtain ⟨entries, hinit, hlen, hentries⟩ := ih hnodup.2 hcontent.2 (n + (handlers i).length)
      have horder : order handlers (i :: phases) =
          (handlers i).reverse.map (fun h => (i, h)) ++ order handlers phases := List.flatMap_cons
      refine ⟨((handlers i).reverse.map fun h =>
        { checker := phaseChecker i, handler := some h, next := n + (handlers i).length }) ++ entries, ?_, ?_, ?_⟩
      · rw [List.cons_append, initLoop, if_neg (Ne.symm hcontent.1)]
        simp only [hinit, List.append_assoc]
      · rw [horder]
        simp [hlen]
      · intro k ph hk
        rw [horder]
        by_cases hlt : k < (handlers i).length
        · rw [List.getElem?_append_left (by simpa using hlt), List.getElem?_map, Option.map_eq_some_iff] at hk
          obtain ⟨h, hh, rfl⟩ := hk
          refine ⟨⟨i, h, ?_, rfl, rfl⟩, (handlers i).length, ?_, rfl⟩
          · rw [List.getElem?_append_left (by simpa using hlt), List.getElem?_map, hh, Option.map_some]
          · have hnext := nextPhase_front (l := (handlers i).reverse.map fun h => (i, h)) (i := i) (k := k) (by simp)
              (@order_ne _ handlers _ _ hnodup.1) (by simpa using hlt)
            simpa using hnext
        · rw [List.getElem?_append_right (by simpa using hlt)] at hk
          obtain ⟨⟨i', h, hget, hchecker, hhandler⟩, k', hnext, hn⟩ := hentries _ ph hk
          refine ⟨⟨i', h, ?_, hchecker, hhandler⟩, (handlers i).length + k', ?_, ?_⟩
          · rw [List.getElem?_append_right (by simpa using hlt)]
            simpa using hget
          · have := hnext.shift (l := (handlers i).reverse.map fun h => (i, h))
            simp only [List.length_map, List.length_reverse] at this
            rwa [Nat.add_sub_cancel' (by omega)] at this
          · rw [hn, Nat.add_assoc]

end NginxDtls.PhaseEngine
