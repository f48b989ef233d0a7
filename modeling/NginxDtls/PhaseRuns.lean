import NginxDtls.PhaseCheckers
import NginxDtls.Run

/-! Sessions that go through the phases, resumed by one event after another: their calls are in order, and the content
handler is called when all handlers are passed, unless `TCP_NODELAY` cannot be set. -/

namespace NginxDtls.PhaseEngine

variable {H W : Type} (env : Env H W) {l : List (StreamPhase × H)} {s s' : Session H W}

/-! ### The engine -/

/-- The phases before the content phase -/
def phasesBeforeContent : List StreamPhase := [.postAccept, .preaccess, .access, .probe, .ssl, .preread]

theorem entryOf_checker {handlers : StreamPhase → List H} {phases : List StreamPhase}
    (hcontent : StreamPhase.content ∉ phases) {k n : ℕ} {ph : PhaseHandler H}
    (h : EntryOf (order handlers phases) k n ph) : ph.checker ≠ .content := by
  obtain ⟨i, h, hget, hchecker, -⟩ := h.handler
  have hi : i ≠ .content := order_ne hcontent (i, h) (List.mem_of_getElem? hget)
  rw [hchecker]
  cases i with
  | content => exact absurd rfl hi
  | postAccept => exact nofun
  | preaccess => exact nofun
  | access => exact nofun
  | probe => exact nofun
  | ssl => exact nofun
  | preread => exact nofun
  | log => exact nofun

theorem ngxStreamInitPhaseHandlers_engine {memory : Bool} {handlers : StreamPhase → List H}
    {engine : List (PhaseHandler H)} (h : ngxStreamInitPhaseHandlers memory handlers = some engine) :
    Engine (order handlers phasesBeforeContent) engine := by
  obtain ⟨entries, hinit, hlen, hentries⟩ :=
    @initLoop_spec _ handlers phasesBeforeContent (by decide) (by decide) 0
  have hengine : engine = entries ++ [{ checker := .content, handler := none, next := 0 }] := by
    unfold ngxStreamInitPhaseHandlers at h
    split at h
    · exact (Option.some.inj h).symm.trans hinit
    · cases h
  subst hengine
  refine ⟨by simp [hlen], fun k ph hk hget => ?_,
    ⟨{ checker := .content, handler := none, next := 0 }, by rw [← hlen]; simp, rfl⟩⟩
  rw [List.getElem?_append_left (by omega)] at hget
  exact ⟨hentries k ph hget, entryOf_checker (by decide) (hentries k ph hget)⟩

/-- The phases were run for a session: the content handler was called exactly when its turn has come, unless
`TCP_NODELAY` could not be set. -/
structure Ran (l : List (StreamPhase × H)) (s : Session H W) (res : CheckerRc × Session H W) : Prop where
  stopped : res.1 ≠ .again
  defined : res.1 ≠ .undefined
  reading : res.1 = .cut → res.2.phaseHandler < l.length
  placed : Placed l res.2
  content : ∃ new, res.2.log = s.log ++ new ∧
    (.content ∈ new ↔ res.2.phaseHandler = l.length ∧ .nodelayFailed ∉ new)

theorem ran_content (hk : s.phaseHandler = l.length) (hlog : Ordered l s.log l.length)
    (hcallable : Callable s.log l.length) : Ran l s (ngxStreamCoreContentPhase env s) := by
  unfold ngxStreamCoreContentPhase
  generalize (if env.setsNodelay s.world then env.ngxTcpNodelay s.world else (true, s.world)) = nodelay
  obtain ⟨nodelay, w⟩ := nodelay
  cases nodelay with
  | false =>
      have hlive : ¬Finalized (s.log ++ [.nodelayFailed]) := by
        rw [finalized_append fun rc h => by cases h]
        exact hcallable.live
      refine ⟨nofun, nofun, nofun, placed_finalize env ?_ hlive _,
        [.nodelayFailed, .finalized streamInternalServerError], ?_, ?_⟩
      · have := Ordered.nodelayFailed hlog hcallable.live
        rwa [← hk] at this
      · exact List.append_assoc s.log _ _
      · simp
  | true =>
      have hlive : ¬Finalized (s.log ++ [.content]) := by
        rw [finalized_append fun rc h => by cases h]
        exact hcallable.live
      refine ⟨nofun, nofun, nofun, ⟨?_, fun _ => ⟨hlive, ?_⟩⟩, [.content], rfl, fun _ => ⟨hk, by simp⟩, fun _ => by simp⟩
      · have := Ordered.content hlog hcallable.live
        rwa [← hk] at this
      · have hlast : lastRc (s.log ++ [.content]) s.phaseHandler = lastRc s.log s.phaseHandler :=
          lastRc_other (fun _ => rfl) _
        rw [← hk] at hcallable
        exact hlast ▸ hcallable.last

theorem ngxStreamCoreContentPhase_ok (s : Session H W) : (ngxStreamCoreContentPhase env s).1 = .ok := by
  unfold ngxStreamCoreContentPhase
  generalize (if env.setsNodelay s.world then env.ngxTcpNodelay s.world else (true, s.world)) = nodelay
  obtain ⟨nodelay, w⟩ := nodelay
  cases nodelay <;> rfl

/-- A checker stops the run. -/
theorem Checks.ran {res : CheckerRc × Session H W} (h : Checks l s res) (hlt : s.phaseHandler < l.length)
    (hres : res.1 ≠ .again) : Ran l s res := by
  have hk := h.stays hres
  obtain ⟨new, hnew, hquiet⟩ := h.adds
  refine ⟨hres, h.defined, fun _ => by omega, h.placed, new, hnew, iff_of_false hquiet.1 fun h' => ?_⟩
  omega

/-- A checker goes on to the rest of the run. -/
theorem Ran.of_checks {res res' : CheckerRc × Session H W} (h : Checks l s res) (h' : Ran l res.2 res') : Ran l s res' := by
  obtain ⟨new, hnew, hquiet⟩ := h.adds
  obtain ⟨new', hnew', hcontent⟩ := h'.content
  refine ⟨h'.stopped, h'.defined, h'.reading, h'.placed, new ++ new', by rw [hnew', hnew, List.append_assoc], ?_⟩
  simpa [hquiet.1, hquiet.2] using hcontent

variable {engine : List (PhaseHandler H)}

theorem checks_callChecker (hengine : Engine l engine) (fuel : ℕ) (hplaced : Placed l s) (hlive : ¬Finalized s.log)
    (hlt : s.phaseHandler < l.length) :
    ∃ ph, engine[s.phaseHandler]? = some ph ∧ Checks l s (callChecker env fuel ph s) := by
  have hget : s.phaseHandler < engine.length := by
    rw [hengine.length]
    omega
  refine ⟨engine[s.phaseHandler], List.getElem?_eq_getElem hget, ?_⟩
  obtain ⟨hentry, hchecker⟩ := hengine.entry s.phaseHandler _ hlt (List.getElem?_eq_getElem hget)
  obtain ⟨i, h, hl, -, hhandler⟩ := hentry.handler
  have hcallable := hplaced.callable hlive
  unfold callChecker
  rw [hhandler]
  cases hc : engine[s.phaseHandler].checker with
  | generic => exact checks_generic env rfl hplaced.ordered hcallable hl hentry
  | preread => exact checks_preread fuel rfl hplaced.ordered hcallable hl hentry
  | content => exact absurd hc hchecker

/-- Every round passes a handler, so that the rounds are enough. -/
theorem runLoop_ran (hengine : Engine l engine) (fuel : ℕ) {rounds : ℕ} (hplaced : Placed l s)
    (hlive : ¬Finalized s.log) (hrounds : l.length < s.phaseHandler + rounds) :
    Ran l s (runLoop env fuel engine rounds s) := by
  have hle := hplaced.ordered.turn.le
  induction rounds generalizing s with
  | zero => omega
  | succ rounds ih =>
      obtain hlt | hk := Nat.lt_or_eq_of_le hle
      · obtain ⟨ph, hget, hchecks⟩ := checks_callChecker env hengine fuel hplaced hlive hlt
        rw [runLoop, hget]
        dsimp only
        generalize callChecker env fuel ph s = res at hchecks
        obtain ⟨rc, s'⟩ := res
        cases rc with
        | again =>
            obtain ⟨hmoved, hlive'⟩ := hchecks.moved rfl
            have hmoved : s.phaseHandler < s'.phaseHandler := hmoved
            exact .of_checks hchecks (ih hchecks.placed hlive' (by omega) hchecks.placed.ordered.turn.le)
        | ok => exact hchecks.ran hlt nofun
        | cut => exact hchecks.ran hlt nofun
        | undefined => exact absurd rfl hchecks.defined
      · obtain ⟨ph, hget, hchecker⟩ := hengine.content
        have hran : Ran l s (ngxStreamCoreContentPhase env s) :=
          ran_content env hk (hk ▸ hplaced.ordered) (hk ▸ hplaced.callable hlive)
        have hok := ngxStreamCoreContentPhase_ok env s
        rw [runLoop, hk, hget]
        dsimp only
        unfold callChecker
        rw [hchecker]
        dsimp only
        generalize ngxStreamCoreContentPhase env s = res at hran hok
        obtain ⟨rc, s'⟩ := res
        obtain rfl : rc = .ok := hok
        exact hran

/-! ### Turns -/

/-- A session only adds to its log. -/
def Extends (s s' : Session H W) : Prop := ∃ new, s'.log = s.log ++ new

/-- The handler whose turn it is is called before anything else. The checker of the preread phase leaves it alone when
the client has timed out, which ends the session, or when a timer is set and no more data are there. -/
inductive TakesTurn (fuel : ℕ) (i : StreamPhase) (h : H) (s s' : Session H W) : Prop
  | called (rc : HandlerRc) (rest : List (Event H)) (hlog : s'.log = s.log ++ .call s.phaseHandler h rc :: rest)
  | timedout (hi : i = .preread) (htimedout : env.timedout s.world = true) (hlog : s'.log = s.log ++ [.finalized streamOk])
  | waits (hi : i = .preread) (htimer : env.timerSet s.world = true) (hread : (prereadRecv env s).1.isSome = true ∨ fuel = 0)

/-- Turn by turn: the content handler has its turn behind all others, a session stays at a handler that was called, or
has passed it and goes on with the next turn. -/
inductive Turns (fuel : ℕ) (l : List (StreamPhase × H)) : Session H W → Session H W → Prop
  | content {s s' : Session H W} (hk : s.phaseHandler = l.length)
      (hlog : s'.log = s.log ++ [.content] ∨ s'.log = s.log ++ [.nodelayFailed, .finalized streamInternalServerError]) :
      Turns fuel l s s'
  | stays {s s' : Session H W} {i : StreamPhase} {h : H} (hget : l[s.phaseHandler]? = some (i, h))
      (hturn : TakesTurn env fuel i h s s') (hk : s'.phaseHandler = s.phaseHandler) : Turns fuel l s s'
  | passes {s s₁ s' : Session H W} {i : StreamPhase} {h : H} (hget : l[s.phaseHandler]? = some (i, h))
      (hturn : TakesTurn env fuel i h s s₁) (hlt : s.phaseHandler < s₁.phaseHandler)
      (hordered : Ordered l s₁.log s₁.phaseHandler) (hrest : Turns fuel l s₁ s') : Turns fuel l s s'

theorem passOn_extends (ph : PhaseHandler H) (rc : HandlerRc) (s : Session H W) : Extends s (passOn env ph rc s).2 := by
  cases rc with
  | error => exact ⟨[.finalized streamInternalServerError], rfl⟩
  | other rc => exact ⟨[.finalized rc], rfl⟩
  | _ => exact ⟨[], (List.append_nil _).symm⟩

theorem prereadLoop_extends (h : H) (fuel : ℕ) (rc : HandlerRc) (s : Session H W) :
    Extends s (prereadLoop env h fuel rc s).2 := by
  induction fuel generalizing rc s with
  | zero =>
      unfold prereadLoop
      split <;> exact ⟨[], (List.append_nil _).symm⟩
  | succ fuel ih =>
      unfold prereadLoop
      split
      · exact ⟨[], (List.append_nil _).symm⟩
      have hsame := (prereadRecv_same env s).1.log
      generalize prereadRecv env s = received at hsame
      obtain ⟨rc', s'⟩ := received
      cases rc' with
      | some rc' => exact ⟨[], hsame.trans (List.append_nil _).symm⟩
      | none =>
          obtain ⟨new, hnew⟩ := ih (callHandler env h s').1 (callHandler env h s').2
          refine ⟨.call s'.phaseHandler h (env.handler h s'.world).1 :: new, hnew.trans ?_⟩
          rw [← hsame]
          exact List.append_assoc s'.log [_] new

theorem prereadWait_extends (s : Session H W) : Extends s (prereadWait env s).2 := by
  unfold prereadWait
  dsimp only
  split
  · exact ⟨[.finalized streamInternalServerError], rfl⟩
  · refine ⟨[], ?_⟩
    rw [List.append_nil]
    split <;> rfl

/-- What the checker of the preread phase does behind its loop. -/
theorem prereadPhase_extends (fuel : ℕ) (ph : PhaseHandler H) (h : H) (s : Session H W) :
    Extends (prereadLoop env h fuel (prereadStart env h s).1 (prereadStart env h s).2).2
      (ngxStreamCorePrereadPhase env fuel ph h s).2 := by
  unfold ngxStreamCorePrereadPhase
  dsimp only
  generalize prereadLoop env h fuel (prereadStart env h s).1 (prereadStart env h s).2 = result
  obtain ⟨rc, s'⟩ := result
  cases rc with
  | none => exact ⟨[], (List.append_nil _).symm⟩
  | some rc =>
      dsimp only
      split
      · exact prereadWait_extends env s'
      · split
        · exact passOn_extends env ph rc (s'.withWorld (env.delTimer s'.world))
        · exact passOn_extends env ph rc s'

theorem takesTurn_of_call {fuel : ℕ} {i : StreamPhase} {h : H} {s s₀ s' : Session H W} (hlog : s₀.log = s.log)
    (hturn : s₀.phaseHandler = s.phaseHandler) (hext : Extends (callHandler env h s₀).2 s') :
    TakesTurn env fuel i h s s' := by
  obtain ⟨new, hnew⟩ := hext
  refine .called (env.handler h s₀.world).1 new ?_
  rw [hnew, ← hlog, ← hturn]
  exact List.append_assoc s₀.log [_] new

theorem Extends.trans {s s' s'' : Session H W} (h : Extends s s') (h' : Extends s' s'') : Extends s s'' := by
  obtain ⟨new, hnew⟩ := h
  obtain ⟨new', hnew'⟩ := h'
  exact ⟨new ++ new', by rw [hnew', hnew, List.append_assoc]⟩

theorem prereadPhase_takesTurn (fuel : ℕ) (ph : PhaseHandler H) (h : H) (s : Session H W) :
    TakesTurn env fuel .preread h s (ngxStreamCorePrereadPhase env fuel ph h s).2 := by
  have hext := prereadPhase_extends env fuel ph h s
  by_cases htimedout : env.timedout s.world = true
  · refine .timedout rfl htimedout ?_
    have hstart : prereadStart env h s = (.other streamOk, s) := if_pos htimedout
    unfold ngxStreamCorePrereadPhase
    rw [hstart]
    dsimp only
    unfold prereadLoop
    rw [if_pos (by decide)]
    dsimp only
    rw [if_neg (by decide)]
    split <;> rfl
  by_cases htimer : env.timerSet s.world = true
  · have hstart : prereadStart env h s = (.again, s) := by
      rw [prereadStart, if_neg htimedout, if_pos htimer]
    rw [hstart] at hext
    cases fuel with
    | zero => exact .waits rfl htimer (.inr rfl)
    | succ fuel =>
        have hsame := (prereadRecv_same env s).1
        cases hrecv : prereadRecv env s with
        | mk rc' s' =>
            rw [hrecv] at hsame
            cases rc' with
            | some rc' => exact .waits rfl htimer (.inl (by rw [hrecv]; rfl))
            | none =>
                have hloop : prereadLoop env h (fuel + 1) .again s =
                    prereadLoop env h fuel (callHandler env h s').1 (callHandler env h s').2 := by
                  rw [prereadLoop, if_neg (not_not.2 rfl), hrecv]
                rw [hloop] at hext
                exact takesTurn_of_call env hsame.log hsame.phaseHandler ((prereadLoop_extends env h fuel _ _).trans hext)
  · have hstart : prereadStart env h s = callHandler env h s := by
      rw [prereadStart, if_neg htimedout, if_neg htimer]
    rw [hstart] at hext
    exact takesTurn_of_call env rfl rfl ((prereadLoop_extends env h fuel _ _).trans hext)

/-- The checker of an entry gives the handler its turn. -/
theorem callChecker_takesTurn (hengine : Engine l engine) (fuel : ℕ) {ph : PhaseHandler H} (hlt : s.phaseHandler < l.length)
    (hph : engine[s.phaseHandler]? = some ph) :
    ∃ i h, l[s.phaseHandler]? = some (i, h) ∧ TakesTurn env fuel i h s (callChecker env fuel ph s).2 := by
  obtain ⟨⟨⟨i, h, hl, hchecker, hhandler⟩, -⟩, hcontent⟩ := hengine.entry s.phaseHandler _ hlt hph
  refine ⟨i, h, hl, ?_⟩
  unfold callChecker
  rw [hhandler]
  cases hc : ph.checker with
  | content => exact absurd hc hcontent
  | generic =>
      exact takesTurn_of_call env rfl rfl (passOn_extends env ph _ _)
  | preread =>
      have hi : i = .preread := by
        rw [hc] at hchecker
        cases i with
        | preread => rfl
        | _ => cases hchecker
      rw [hi]
      exact prereadPhase_takesTurn env fuel ph h s

theorem contentPhase_turns (fuel : ℕ) (hk : s.phaseHandler = l.length) : Turns env fuel l s (ngxStreamCoreContentPhase env s).2 := by
  refine .content hk ?_
  unfold ngxStreamCoreContentPhase
  generalize (if env.setsNodelay s.world then env.ngxTcpNodelay s.world else (true, s.world)) = nodelay
  obtain ⟨nodelay, w⟩ := nodelay
  cases nodelay with
  | false => exact .inr (List.append_assoc s.log _ _)
  | true => exact .inl rfl

/-- The loop gives every handler its turn. -/
theorem runLoop_turns (hengine : Engine l engine) (fuel : ℕ) {rounds : ℕ} (hplaced : Placed l s)
    (hlive : ¬Finalized s.log) (hrounds : l.length < s.phaseHandler + rounds) :
    Turns env fuel l s (runLoop env fuel engine rounds s).2 := by
  induction rounds generalizing s with
  | zero =>
      have hle := hplaced.ordered.turn.le
      omega
  | succ rounds ih =>
      obtain hlt | hk := Nat.lt_or_eq_of_le hplaced.ordered.turn.le
      · obtain ⟨ph, hget, hchecks⟩ := checks_callChecker env hengine fuel hplaced hlive hlt
        obtain ⟨i, h, hl, hturn⟩ := callChecker_takesTurn env hengine fuel hlt hget
        rw [runLoop, hget]
        dsimp only
        generalize callChecker env fuel ph s = res at hchecks hturn
        obtain ⟨rc, s'⟩ := res
        cases rc with
        | again =>
            obtain ⟨hmoved, hlive'⟩ := hchecks.moved rfl
            have hmoved : s.phaseHandler < s'.phaseHandler := hmoved
            exact .passes hl hturn hmoved hchecks.placed.ordered (ih hchecks.placed hlive' (by omega))
        | ok => exact .stays hl hturn (hchecks.stays nofun)
        | cut => exact .stays hl hturn (hchecks.stays nofun)
        | undefined => exact absurd rfl hchecks.defined
      · obtain ⟨ph, hget, hchecker⟩ := hengine.content
        have hturns := contentPhase_turns env fuel hk
        have hok := ngxStreamCoreContentPhase_ok env s
        rw [runLoop, hk, hget]
        dsimp only
        unfold callChecker
        rw [hchecker]
        dsimp only
        generalize ngxStreamCoreContentPhase env s = res at hturns hok
        obtain ⟨rc, s'⟩ := res
        obtain rfl : rc = .ok := hok
        exact hturns

/-! ### Sessions -/

/-- An event that runs the phases: what the connection has become, and how long the preread loop is looked at. -/
structure Resume (W : Type) where
  world : W
  fuel : ℕ

/-- `ngx_stream_session_handler` -/
def resume (engine : List (PhaseHandler H)) (s : Session H W) (e : Resume W) : CheckerRc × Session H W :=
  ngxStreamCoreRunPhases env e.fuel engine (s.withWorld e.world)

def resumed (engine : List (PhaseHandler H)) (s : Session H W) (e : Resume W) : Session H W := (resume env engine s e).2

/-- A session that is finalized gets no events. -/
def Unfinished (s : Session H W) (_ : Resume W) : Prop := ¬Finalized s.log

def Session.fresh (w : W) : Session H W := { phaseHandler := 0, world := w, log := [] }

theorem resume_ran (hengine : Engine l engine) (hplaced : Placed l s) (hlive : ¬Finalized s.log) (e : Resume W) :
    Ran l (s.withWorld e.world) (resume env engine s e) := by
  refine runLoop_ran env hengine e.fuel ⟨hplaced.ordered, hplaced.callable⟩ hlive ?_
  rw [hengine.length]
  exact Nat.lt_add_left _ (by omega)

theorem placed_fresh (w : W) : Placed l (Session.fresh w : Session H W) :=
  ⟨.start, fun h => ⟨h, .inl rfl⟩⟩

/-- A session is always placed at the handler whose turn it is. -/
theorem run_placed (hengine : Engine l engine) (w : W) {es : List (Resume W)}
    (hes : Run.Along (resumed env engine) Unfinished (.fresh w) es) :
    Placed l (Run.run (resumed env engine) (.fresh w) es) := by
  have hstep : ∀ (s : Session H W) e, Placed l s → Unfinished s e → Placed l (resumed env engine s e) :=
    fun _ e hplaced hlive => (resume_ran env hengine hplaced hlive e).placed
  exact Run.run_invariant hstep (placed_fresh w) hes

/-- Running the phases for a session calls the content handler exactly when every handler before it has returned
`NGX_OK` or `NGX_DECLINED`. -/
def ContentRuns (l : List (StreamPhase × H)) (s s' : Session H W) : Prop :=
  ∃ new, s'.log = s.log ++ new ∧ (.content ∈ new ↔ Passed l s'.log l.length)

/-- That, and `TCP_NODELAY` did not fail to be set. -/
def ContentRunsNodelay (l : List (StreamPhase × H)) (s s' : Session H W) : Prop :=
  ∃ new, s'.log = s.log ++ new ∧ (.content ∈ new ↔ Passed l s'.log l.length ∧ .nodelayFailed ∉ new)

/-- A session goes through the phases in order: the array holds the handlers phase by phase, in a phase the last one
registered first, and its calls follow it; the index is that of an entry. An event gives the handlers their turns, from
the index on, and calls the content handler when all handlers are passed. -/
structure GoesThrough (l : List (StreamPhase × H)) (engine : List (PhaseHandler H)) (s : Session H W) : Prop where
  array : Engine l engine
  ordered : Ordered l s.log s.phaseHandler
  inside : s.phaseHandler ≤ l.length
  resumed : ∀ e, ¬Finalized s.log →
    (resume env engine s e).1 ≠ .undefined ∧ ContentRunsNodelay l s (resume env engine s e).2 ∧
      Turns env e.fuel l (s.withWorld e.world) (resume env engine s e).2

theorem phase_order (handlers : StreamPhase → List H) {memory : Bool} {engine : List (PhaseHandler H)}
    (hinit : ngxStreamInitPhaseHandlers memory handlers = some engine) (w : W) {es : List (Resume W)}
    (hes : Run.Along (resumed env engine) Unfinished (.fresh w) es) :
    GoesThrough env (order handlers phasesBeforeContent) engine (Run.run (resumed env engine) (.fresh w) es) := by
  have hengine := ngxStreamInitPhaseHandlers_engine hinit
  have hplaced := run_placed env hengine w hes
  refine ⟨hengine, hplaced.ordered, hplaced.ordered.turn.le, fun e hlive => ?_⟩
  have hran := resume_ran env hengine hplaced hlive e
  obtain ⟨new, hnew, hcontent⟩ := hran.content
  refine ⟨hran.defined, ⟨new, hnew, ?_⟩, ?_⟩
  · rw [hran.placed.ordered.passed_iff]
    exact hcontent
  · refine runLoop_turns env hengine e.fuel ⟨hplaced.ordered, hplaced.callable⟩ hlive ?_
    rw [hengine.length]
    exact Nat.lt_add_left _ (by omega)

/-! ### The end of the preread loop -/

/-- Data make the room in the buffer smaller, and handlers never make it larger. -/
structure BufferLaws (env : Env H W) : Prop where
  handler : ∀ h w size, env.room w = some size → ∃ size' ≤ size, env.room (env.handler h w).2 = some size'
  recv : ∀ w size n w', env.room w = some size → env.recv w size = (.data n, w') →
    ∃ size' < size, env.room (env.advanceLast w' n) = some size'

section Returns

variable {env}

theorem ensureBuffer_room {size : ℕ} (h : ensureBuffer env s = some (size, s')) :
    env.room s'.world = some size ∧ ∀ size', env.room s.world = some size' → size' = size := by
  unfold ensureBuffer at h
  split at h
  · next size' hroom =>
    obtain ⟨rfl, rfl⟩ := Prod.mk.inj (Option.some.inj h)
    exact ⟨hroom, fun _ h' => Option.some.inj (h'.symm.trans hroom)⟩
  · next hroom =>
    dsimp only at h
    split at h
    · next hcreated hroom' =>
      obtain ⟨rfl, rfl⟩ := Prod.mk.inj (Option.some.inj h)
      exact ⟨hroom', fun _ h' => by cases h'.symm.trans hroom⟩
    · cases h

/-- Data were received into the room that there was. -/
theorem prereadRecv_room (hlaws : BufferLaws env) (h : prereadRecv env s = (none, s')) :
    ∃ size, env.room s'.world = some size ∧ ∀ size', env.room s.world = some size' → size < size' := by
  unfold prereadRecv at h
  split at h
  · cases h
  · next size s₁ hbuffer =>
    obtain ⟨hroom, hsize⟩ := ensureBuffer_room hbuffer
    dsimp only at h
    split at h
    · cases h
    split at h
    · cases h
    split at h
    · cases h
    split at h
    · cases h
    · cases h
    · cases h
    · next n hn =>
      obtain ⟨size₂, hlt, hroom₂⟩ := hlaws.recv s₁.world size n _ hroom (Prod.ext hn rfl)
      cases h
      exact ⟨size₂, hroom₂, fun size' h' => (hsize size' h').symm ▸ hlt⟩

/-- From some number of rounds on the loop ends, in the same way. -/
def Settles (env : Env H W) (h : H) (rc : HandlerRc) (s : Session H W) : Prop :=
  ∃ fuel₀ rc' s', ∀ fuel ≥ fuel₀, prereadLoop env h fuel rc s = (some rc', s')

theorem settles_of_next {h : H} {rc : HandlerRc}
    (hnext : ∀ s', prereadRecv env s = (none, s') → Settles env h (callHandler env h s').1 (callHandler env h s').2) :
    Settles env h rc s := by
  by_cases hrc : rc = .again
  · cases hrecv : prereadRecv env s with
    | mk code s₁ =>
        cases code with
        | some rc' =>
            refine ⟨1, rc', s₁, fun fuel hfuel => ?_⟩
            obtain ⟨fuel, rfl⟩ := Nat.exists_eq_add_of_le' hfuel
            rw [prereadLoop, if_neg (not_not.2 hrc), hrecv]
        | none =>
            obtain ⟨fuel₀, rc', s', hloop⟩ := hnext s₁ hrecv
            refine ⟨fuel₀ + 1, rc', s', fun fuel hfuel => ?_⟩
            obtain ⟨fuel, rfl⟩ := Nat.exists_eq_add_of_le' hfuel
            rw [← Nat.add_assoc, prereadLoop, if_neg (not_not.2 hrc), hrecv]
            exact hloop _ (Nat.le_add_left _ _)
  · refine ⟨0, rc, s, fun fuel _ => ?_⟩
    unfold prereadLoop
    exact if_pos hrc

theorem settles_of_room (hlaws : BufferLaws env) (h : H) {size : ℕ} {s : Session H W} {rc : HandlerRc}
    (hroom : env.room s.world = some size) : Settles env h rc s := by
  induction size using Nat.strong_induction_on generalizing s rc with
  | _ size ih =>
      refine settles_of_next fun s₁ hrecv => ?_
      obtain ⟨size₁, hroom₁, hlt⟩ := prereadRecv_room hlaws hrecv
      obtain ⟨size₂, hle, hroom₂⟩ := hlaws.handler h s₁.world size₁ hroom₁
      exact ih size₂ (hle.trans_lt (hlt size hroom)) hroom₂

theorem settles (hlaws : BufferLaws env) (h : H) (rc : HandlerRc) (s : Session H W) : Settles env h rc s := by
  refine settles_of_next fun s₁ hrecv => ?_
  obtain ⟨size₁, hroom₁, -⟩ := prereadRecv_room hlaws hrecv
  obtain ⟨size₂, -, hroom₂⟩ := hlaws.handler h s₁.world size₁ hroom₁
  exact settles_of_room hlaws h hroom₂

theorem passOn_ne_cut (ph : PhaseHandler H) (rc : HandlerRc) (s : Session H W) : (passOn env ph rc s).1 ≠ .cut := by
  cases rc <;> exact nofun

theorem prereadWait_ne_cut (s : Session H W) : (prereadWait env s).1 ≠ .cut := by
  unfold prereadWait
  dsimp only
  split <;> exact nofun

theorem callChecker_settles (hlaws : BufferLaws env) (ph : PhaseHandler H) (s : Session H W) :
    ∃ fuel₀ res, res.1 ≠ .cut ∧ ∀ fuel ≥ fuel₀, callChecker env fuel ph s = res := by
  obtain ⟨checker, handler, next⟩ := ph
  cases checker with
  | content =>
      refine ⟨0, ngxStreamCoreContentPhase env s, ?_, fun fuel _ => rfl⟩
      rw [ngxStreamCoreContentPhase_ok]
      exact nofun
  | generic =>
      cases handler with
      | none => exact ⟨0, (.undefined, s), nofun, fun fuel _ => rfl⟩
      | some h => exact ⟨0, ngxStreamCoreGenericPhase env _ h s, passOn_ne_cut _ _ _, fun fuel _ => rfl⟩
  | preread =>
      cases handler with
      | none => exact ⟨0, (.undefined, s), nofun, fun fuel _ => rfl⟩
      | some h =>
          obtain ⟨fuel₀, rc, s', hloop⟩ := settles hlaws h (prereadStart env h s).1 (prereadStart env h s).2
          refine ⟨fuel₀, if rc = .again then prereadWait env s'
            else passOn env { checker := .preread, handler := some h, next := next } rc
              (if env.timerSet s'.world then s'.withWorld (env.delTimer s'.world) else s'), ?_, fun fuel hfuel => ?_⟩
          · split
            · exact prereadWait_ne_cut s'
            · exact passOn_ne_cut _ _ _
          · simp only [callChecker, ngxStreamCorePrereadPhase, hloop fuel hfuel]

/-- From some number of rounds on the phases are run to an end. -/
theorem runLoop_settles (hlaws : BufferLaws env) (hengine : Engine l engine) {rounds : ℕ} (hplaced : Placed l s)
    (hlive : ¬Finalized s.log) (hrounds : l.length < s.phaseHandler + rounds) :
    ∃ fuel₀ res, res.1 ≠ .cut ∧ ∀ fuel ≥ fuel₀, runLoop env fuel engine rounds s = res := by
  induction rounds generalizing s with
  | zero =>
      have := hplaced.ordered.turn.le
      omega
  | succ rounds ih =>
      obtain hlt | hk := Nat.lt_or_eq_of_le hplaced.ordered.turn.le
      · obtain ⟨ph, hget, -⟩ := checks_callChecker env hengine 0 hplaced hlive hlt
        obtain ⟨fuel₀, res, hcut, hcall⟩ := callChecker_settles hlaws ph s
        have hchecks : Checks l s res := by
          obtain ⟨ph', hget', hchecks⟩ := checks_callChecker env hengine fuel₀ hplaced hlive hlt
          obtain rfl := Option.some.inj (hget.symm.trans hget')
          rwa [hcall fuel₀ le_rfl] at hchecks
        obtain ⟨rc, s'⟩ := res
        by_cases hrc : rc = .again
        · obtain ⟨hmoved, hlive'⟩ := hchecks.moved hrc
          have hmoved : s.phaseHandler < s'.phaseHandler := hmoved
          obtain ⟨fuel₁, res', hcut', hloop⟩ := ih hchecks.placed hlive' (by dsimp only; omega)
          refine ⟨max fuel₀ fuel₁, res', hcut', fun fuel hfuel => ?_⟩
          rw [runLoop, hget]
          simp only [hcall fuel (le_of_max_le_left hfuel), hrc]
          exact hloop fuel (le_of_max_le_right hfuel)
        · refine ⟨fuel₀, (rc, s'), hcut, fun fuel hfuel => ?_⟩
          rw [runLoop, hget]
          simp only [hcall fuel hfuel]
      · obtain ⟨ph, hget, hchecker⟩ := hengine.content
        obtain ⟨fuel₀, res, hcut, hcall⟩ := callChecker_settles hlaws ph s
        refine ⟨fuel₀, res, hcut, fun fuel hfuel => ?_⟩
        have hok : res.1 = .ok := by
          rw [← hcall fuel hfuel]
          unfold callChecker
          rw [hchecker]
          exact ngxStreamCoreContentPhase_ok env s
        rw [runLoop, hk, hget]
        simp only [hcall fuel hfuel]
        obtain ⟨rc, s'⟩ := res
        obtain rfl : rc = .ok := hok
        rfl

end Returns

/-- Whatever an event finds, the phases are run to an end. -/
theorem resume_returns (hlaws : BufferLaws env) {handlers : StreamPhase → List H} {memory : Bool}
    (hinit : ngxStreamInitPhaseHandlers memory handlers = some engine) (w : W) {es : List (Resume W)}
    (hes : Run.Along (resumed env engine) Unfinished (.fresh w) es)
    (hlive : ¬Finalized (Run.run (resumed env engine) (.fresh w) es).log) (w' : W) :
    ∃ fuel₀, ∀ fuel ≥ fuel₀, (resume env engine (Run.run (resumed env engine) (.fresh w) es) ⟨w', fuel⟩).1 = .ok := by
  have hengine := ngxStreamInitPhaseHandlers_engine hinit
  have hplaced := run_placed env hengine w hes
  generalize Run.run (resumed env engine) (.fresh w) es = s at hplaced hlive
  have hrounds : (order handlers phasesBeforeContent).length < s.phaseHandler + (engine.length + 1) := by
    rw [hengine.length]
    exact Nat.lt_add_left _ (by omega)
  obtain ⟨fuel₀, res, hcut, hloop⟩ :=
    @runLoop_settles _ _ env _ (s.withWorld w') _ hlaws hengine _ ⟨hplaced.ordered, hplaced.callable⟩ hlive hrounds
  refine ⟨fuel₀, fun fuel hfuel => ?_⟩
  have hran := resume_ran env hengine hplaced hlive ⟨w', fuel⟩
  have hres : resume env engine s ⟨w', fuel⟩ = res := hloop fuel hfuel
  rw [hres] at hran ⊢
  obtain ⟨rc, s'⟩ := res
  cases rc with
  | ok => rfl
  | again => exact absurd rfl hran.stopped
  | cut => exact absurd rfl hcut
  | undefined => exact absurd rfl hran.defined

/-- Two handlers in the access phase and one in the preread phase, of which one declines. -/
def threeHandlers : StreamPhase → List ℕ
  | .access => [0, 1]
  | .preread => [2]
  | _ => []

/-- A connection that gets one byte after another, while the handler of the preread phase waits for the buffer to be full. -/
def fillingEnv : Env ℕ ℕ where
  handler h room := (if h = 2 ∧ room ≠ 0 then .again else .ok, room)
  timedout _ := false
  timerSet _ := false
  eof _ := false
  ready _ := true
  room room := some room
  createTempBuf room := (true, room)
  recv room size := (if size = 0 then .again else .data 1, room)
  advanceLast room n := room - n
  handleReadEvent room := (true, room)
  addTimer room := room
  delTimer room := room
  setReadHandler room := room
  setsNodelay _ := true
  ngxTcpNodelay room := (true, room)
  contentHandler room := room
  finalizeSession room _ := room

theorem fillingEnv_laws : BufferLaws fillingEnv where
  handler _ _ size hroom := ⟨size, le_refl size, hroom⟩
  recv := by
    intro room size n room' hroom hrecv
    obtain rfl : room = size := Option.some.inj hroom
    obtain ⟨hdata, rfl⟩ := Prod.mk.inj hrecv
    cases room with
    | zero => cases hdata
    | succ room =>
        obtain rfl : 1 = n := Received.data.inj hdata
        exact ⟨room, Nat.lt_succ_self room, rfl⟩

theorem resume_returns_filling : ∃ fuel₀, ∀ fuel ≥ fuel₀,
    (resume fillingEnv (initLoop threeHandlers phasesBelowLog 0) (.fresh 0) ⟨3, fuel⟩).1 = .ok :=
  @resume_returns ℕ ℕ fillingEnv _ fillingEnv_laws threeHandlers true rfl 0 [] trivial
    (by simp [Finalized, Run.run, Session.fresh]) 3

/-- A connection on which everything works, and `TCP_NODELAY` is set or fails to be. -/
def quietEnv (nodelay : Bool) : Env ℕ Unit where
  handler h w := (if h = 1 then .declined else .ok, w)
  timedout _ := false
  timerSet _ := false
  eof _ := false
  ready _ := false
  room _ := none
  createTempBuf w := (true, w)
  recv w _ := (.again, w)
  advanceLast w _ := w
  handleReadEvent w := (true, w)
  addTimer w := w
  delTimer w := w
  setReadHandler w := w
  setsNodelay _ := true
  ngxTcpNodelay w := (nodelay, w)
  contentHandler w := w
  finalizeSession w _ := w

theorem phase_order_three :
    GoesThrough (quietEnv true) (order threeHandlers phasesBeforeContent) (initLoop threeHandlers phasesBelowLog 0)
      (Run.run (resumed (quietEnv true) (initLoop threeHandlers phasesBelowLog 0)) (.fresh ()) [⟨(), 0⟩]) :=
  @phase_order ℕ Unit (quietEnv true) threeHandlers true _ rfl () [⟨(), 0⟩]
    ⟨by simp [Unfinished, Finalized, Session.fresh], trivial⟩

example :
    (resumed (quietEnv true) (initLoop threeHandlers phasesBelowLog 0) (.fresh ()) ⟨(), 0⟩).log =
      [.call 0 1 .declined, .call 1 0 .ok, .call 2 2 .ok, .content] := by
  decide

/-- Without any handler the content handler is not called if `TCP_NODELAY` cannot be set. -/
theorem content_not_called :
    ¬ContentRuns (order (fun _ => []) phasesBeforeContent) (.fresh ())
      (resumed (quietEnv false) (initLoop (fun _ => []) phasesBelowLog 0) (.fresh ()) ⟨(), 0⟩) := by
  rintro ⟨new, hnew, hcontent⟩
  have hlog : (resumed (quietEnv false) (initLoop (fun _ => []) phasesBelowLog 0) (.fresh ()) ⟨(), 0⟩).log =
      [.nodelayFailed, .finalized streamInternalServerError] := by decide
  have hcalled := hcontent.2 .refl
  rw [hlog] at hnew
  simp only [Session.fresh, List.nil_append] at hnew
  rw [← hnew] at hcalled
  simp at hcalled

end NginxDtls.PhaseEngine
