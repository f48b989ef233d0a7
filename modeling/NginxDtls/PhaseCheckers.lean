import NginxDtls.PhaseOrder

/-! What the checkers do to a session: they call the handler whose turn it is, once or, to read on, several times, and
move on as it says, or else the session waits or is finalized. -/

namespace NginxDtls.PhaseEngine

variable {H W : Type}

/-! ### The checkers -/

/-- The array of the handlers, with the content phase behind them. -/
structure Engine (l : List (StreamPhase × H)) (handlers : List (PhaseHandler H)) : Prop where
  length : handlers.length = l.length + 1
  entry : ∀ k ph, k < l.length → handlers[k]? = some ph → EntryOf l k 0 ph ∧ ph.checker ≠ .content
  content : ∃ ph, handlers[l.length]? = some ph ∧ ph.checker = .content

/-- A session whose calls are in order, with the index of the handler whose turn it is. Unless the session is finalized
the handler can be called. -/
structure Placed (l : List (StreamPhase × H)) (s : Session H W) : Prop where
  ordered : Ordered l s.log s.phaseHandler
  callable : ¬Finalized s.log → Callable s.log s.phaseHandler

/-- Events of a checker that is not that of the content phase. -/
def Quiet (new : List (Event H)) : Prop := .content ∉ new ∧ .nodelayFailed ∉ new

/-- A checker has added quiet events to the log of a session. -/
def Adds (s s' : Session H W) : Prop := ∃ new, s'.log = s.log ++ new ∧ Quiet new

theorem quiet_append {new new' : List (Event H)} (h : Quiet new) (h' : Quiet new') : Quiet (new ++ new') :=
  ⟨by simp [h.1, h'.1], by simp [h.2, h'.2]⟩

theorem Adds.refl (s : Session H W) : Adds s s := ⟨[], by simp, by simp [Quiet]⟩

theorem Adds.trans {s s' s'' : Session H W} (h : Adds s s') (h' : Adds s' s'') : Adds s s'' := by
  obtain ⟨new, hnew, hq⟩ := h
  obtain ⟨new', hnew', hq'⟩ := h'
  exact ⟨new ++ new', by rw [hnew', hnew, List.append_assoc], quiet_append hq hq'⟩

theorem Adds.of_log {s s' : Session H W} (h : s'.log = s.log) : Adds s s' := ⟨[], by simp [h], by simp [Quiet]⟩

variable (env : Env H W) {l : List (StreamPhase × H)} {s s' : Session H W}

theorem adds_callHandler (h : H) (s : Session H W) : Adds s (callHandler env h s).2 :=
  ⟨[.call s.phaseHandler h (env.handler h s.world).1], rfl, by simp [Quiet]⟩

theorem adds_finalize (s : Session H W) (rc : ℤ) : Adds s (ngxStreamFinalizeSession env s rc) :=
  ⟨[.finalized rc], rfl, by simp [Quiet]⟩

/-- The handler whose turn it is has returned a code, or is still to be called; then the code is one of those that
do not pass on to the next handler. -/
inductive Answered (l : List (StreamPhase × H)) (k : ℕ) (h : H) (s : Session H W) : HandlerRc → Prop
  | waiting {rc : HandlerRc} (hk : s.phaseHandler = k) (hlog : Ordered l s.log k) (hcallable : Callable s.log k)
      (hok : rc ≠ .ok) (hdeclined : rc ≠ .declined) : Answered l k h s rc
  | called {log : List (Event H)} {rc : HandlerRc} (hk : s.phaseHandler = k) (hlog : Ordered l log k)
      (hcallable : Callable log k) (heq : s.log = log ++ [.call k h rc]) : Answered l k h s rc

theorem finalized_append {log : List (Event H)} {e : Event H} (he : ∀ rc, e ≠ .finalized rc) :
    Finalized (log ++ [e]) ↔ Finalized log := by
  constructor
  · rintro ⟨rc, hmem⟩
    obtain hmem | hmem := List.mem_append.1 hmem
    · exact ⟨rc, hmem⟩
    · exact absurd (List.mem_singleton.1 hmem).symm (he rc)
  · rintro ⟨rc, hmem⟩
    exact ⟨rc, List.mem_append_left _ hmem⟩

namespace Answered

variable {k : ℕ} {i : StreamPhase} {h : H} {rc : HandlerRc}

theorem of_eq (ha : Answered l k h s rc) (hk : s'.phaseHandler = s.phaseHandler) (hlog : s'.log = s.log) :
    Answered l k h s' rc := by
  cases ha with
  | waiting hk' hlog' hcallable hok hdeclined =>
      exact .waiting (hk.trans hk') (hlog ▸ hlog') (hlog ▸ hcallable) hok hdeclined
  | called hk' hlog' hcallable heq => exact .called (hk.trans hk') hlog' hcallable (hlog.trans heq)

theorem phaseHandler_eq (ha : Answered l k h s rc) : s.phaseHandler = k := by
  cases ha with
  | waiting hk hlog hcallable hok hdeclined => exact hk
  | called hk hlog hcallable heq => exact hk

theorem live (ha : Answered l k h s rc) : ¬Finalized s.log := by
  cases ha with
  | waiting hk hlog hcallable hok hdeclined => exact hcallable.live
  | called hk hlog hcallable heq =>
      rw [heq, finalized_append fun rc h => by cases h]
      exact hcallable.live

/-- After a code that does not pass on it is still the turn of the handler. -/
theorem ordered (ha : Answered l k h s rc) (hget : l[k]? = some (i, h)) (hok : rc ≠ .ok) (hdeclined : rc ≠ .declined) :
    Ordered l s.log k := by
  cases ha with
  | waiting hk hlog hcallable hok hdeclined => exact hlog
  | called hk hlog hcallable heq =>
      rw [heq]
      exact .call hlog hcallable hget (.stays hok hdeclined)

/-- A handler that returned `NGX_AGAIN` or `NGX_DONE` can be called again. -/
theorem callable (ha : Answered l k h s rc) (hrc : rc = .again ∨ rc = .done) : Callable s.log k := by
  refine ⟨ha.live, ?_⟩
  cases ha with
  | waiting hk hlog hcallable hok hdeclined => exact hcallable.last
  | called hk hlog hcallable heq =>
      rw [heq, lastRc_call]
      obtain rfl | rfl := hrc
      · exact .inr (.inl rfl)
      · exact .inr (.inr rfl)

end Answered

/-- What a checker that is not that of the content phase does. -/
structure Checks (l : List (StreamPhase × H)) (s : Session H W) (res : CheckerRc × Session H W) : Prop where
  adds : Adds s res.2
  placed : Placed l res.2
  moved : res.1 = .again → s.phaseHandler < res.2.phaseHandler ∧ ¬Finalized res.2.log
  stays : res.1 ≠ .again → res.2.phaseHandler = s.phaseHandler
  defined : res.1 ≠ .undefined

theorem placed_finalize (hlog : Ordered l s.log s.phaseHandler) (hlive : ¬Finalized s.log) (rc : ℤ) :
    Placed l (ngxStreamFinalizeSession env s rc) where
  ordered := .finalized hlog hlive rc
  callable hn := absurd ⟨rc, List.mem_append_right _ (List.mem_singleton.2 rfl)⟩ hn

theorem checks_finalize {s₀ : Session H W} (hadds : Adds s₀ s) (hk : s.phaseHandler = s₀.phaseHandler)
    (hlog : Ordered l s.log s.phaseHandler) (hlive : ¬Finalized s.log) (rc : ℤ) :
    Checks l s₀ (.ok, ngxStreamFinalizeSession env s rc) where
  adds := hadds.trans (adds_finalize env s rc)
  placed := placed_finalize env hlog hlive rc
  moved h := by cases h
  stays _ := hk
  defined := nofun

section Checker

variable {env} {k : ℕ} {i : StreamPhase} {h : H} {rc : HandlerRc} {ph : PhaseHandler H} {s₀ : Session H W}

theorem checks_stays (hadds : Adds s₀ s) (hk₀ : s₀.phaseHandler = k) (hget : l[k]? = some (i, h))
    (ha : Answered l k h s rc) (hrc : rc = .again ∨ rc = .done) {res : CheckerRc} (hres : res = .ok ∨ res = .cut) :
    Checks l s₀ (res, s) := by
  have hordered : Ordered l s.log k := ha.ordered hget (by grind) (by grind)
  have hk := ha.phaseHandler_eq
  refine ⟨hadds, ⟨hk ▸ hordered, fun _ => hk ▸ ha.callable hrc⟩, ?_, fun _ => hk.trans hk₀.symm, ?_⟩
  · grind
  · grind

theorem checks_moves (hadds : Adds s₀ s) (hk₀ : s₀.phaseHandler = k) (hget : l[k]? = some (i, h))
    (ha : Answered l k h s rc) {k' : ℕ} (hnext : Next l k rc k') (hrc : rc = .ok ∨ rc = .declined) :
    Checks l s₀ (.again, { s with phaseHandler := k' }) := by
  have hlt : k < k' := by
    cases hnext with
    | ok hphase => exact hphase.lt
    | declined => exact Nat.lt_succ_self k
    | stays hok hdeclined => exact absurd hrc (by simp [hok, hdeclined])
  have hlive := ha.live
  cases ha with
  | waiting hk hlog hcallable hok hdeclined => exact absurd hrc (by simp [hok, hdeclined])
  | called hk hlog hcallable heq =>
      have hordered : Ordered l s.log k' := by
        rw [heq]
        exact .call hlog hcallable hget hnext
      have hlast : lastRc s.log k' = none := by
        rw [heq, lastRc_call_ne (Nat.ne_of_lt hlt)]
        exact hlog.turn.later k' hlt
      exact ⟨hadds, ⟨hordered, fun _ => ⟨hlive, .inl hlast⟩⟩, fun _ => ⟨by simpa [hk₀] using hlt, hlive⟩,
        fun h => absurd rfl h, nofun⟩

theorem checks_passOn (hadds : Adds s₀ s) (hk₀ : s₀.phaseHandler = k) (hget : l[k]? = some (i, h))
    (hph : EntryOf l k 0 ph) (ha : Answered l k h s rc) : Checks l s₀ (passOn env ph rc s) := by
  have hk := ha.phaseHandler_eq
  have hfinal : ∀ code, rc ≠ .ok → rc ≠ .declined → Checks l s₀ (.ok, ngxStreamFinalizeSession env s code) :=
    fun code hok hdeclined => checks_finalize env hadds (hk.trans hk₀.symm)
      (hk.symm ▸ ha.ordered hget hok hdeclined) ha.live code
  cases rc with
  | ok =>
      obtain ⟨k', hphase, hnext⟩ := hph.next
      rw [Nat.zero_add] at hnext
      rw [passOn, hnext]
      exact checks_moves hadds hk₀ hget ha (.ok hphase) (.inl rfl)
  | declined =>
      rw [passOn, hk]
      exact checks_moves hadds hk₀ hget ha (.declined k) (.inr rfl)
  | again => exact checks_stays hadds hk₀ hget ha (.inl rfl) (.inl rfl)
  | done => exact checks_stays hadds hk₀ hget ha (.inr rfl) (.inl rfl)
  | error => exact hfinal streamInternalServerError nofun nofun
  | other code => exact hfinal code nofun nofun

end Checker

theorem answered_callHandler {k : ℕ} {h : H} (hk : s.phaseHandler = k) (hlog : Ordered l s.log k)
    (hcallable : Callable s.log k) : Answered l k h (callHandler env h s).2 (callHandler env h s).1 :=
  .called hk hlog hcallable (by rw [← hk]; rfl)

theorem checks_generic {k : ℕ} {i : StreamPhase} {h : H} {ph : PhaseHandler H} (hk : s.phaseHandler = k)
    (hlog : Ordered l s.log k) (hcallable : Callable s.log k) (hget : l[k]? = some (i, h)) (hph : EntryOf l k 0 ph) :
    Checks l s (ngxStreamCoreGenericPhase env ph h s) :=
  checks_passOn (adds_callHandler env h s) hk hget hph (answered_callHandler env hk hlog hcallable)

/-! ### The preread checker -/

/-- Only the connection has changed. -/
structure SameCalls (s s' : Session H W) : Prop where
  phaseHandler : s'.phaseHandler = s.phaseHandler
  log : s'.log = s.log

theorem SameCalls.withWorld (h : SameCalls s s') (w : W) : SameCalls s (s'.withWorld w) := ⟨h.phaseHandler, h.log⟩

theorem SameCalls.ite {c : Prop} [Decidable c] {s'' : Session H W} (h : SameCalls s s') (h' : SameCalls s s'') :
    SameCalls s (if c then s' else s'') := by
  split
  · exact h
  · exact h'

theorem checks_same {k : ℕ} {i : StreamPhase} {h : H} {s₀ : Session H W} (hsame : SameCalls s s') (hadds : Adds s₀ s)
    (hk₀ : s₀.phaseHandler = k) (hget : l[k]? = some (i, h)) (ha : Answered l k h s .again) :
    Checks l s₀ (.ok, s') :=
  checks_stays (hadds.trans (.of_log hsame.log)) hk₀ hget (ha.of_eq hsame.phaseHandler hsame.log) (.inl rfl) (.inl rfl)

theorem ensureBuffer_same {size : ℕ} (h : ensureBuffer env s = some (size, s')) : SameCalls s s' := by
  unfold ensureBuffer at h
  split at h
  · obtain ⟨-, rfl⟩ := Prod.mk.inj (Option.some.inj h)
    exact ⟨rfl, rfl⟩
  · dsimp only at h
    split at h
    · obtain ⟨-, rfl⟩ := Prod.mk.inj (Option.some.inj h)
      exact ⟨rfl, rfl⟩
    · cases h

theorem prereadRecv_same (s : Session H W) :
    SameCalls s (prereadRecv env s).2 ∧
      ∀ rc, (prereadRecv env s).1 = some rc → rc ≠ .ok ∧ rc ≠ .declined := by
  unfold prereadRecv
  split
  · exact ⟨⟨rfl, rfl⟩, by simp⟩
  · next size s' hbuffer =>
    have hsame := ensureBuffer_same env hbuffer
    split
    · exact ⟨hsame, by simp⟩
    split
    · exact ⟨hsame, by simp⟩
    split
    · exact ⟨hsame, by simp⟩
    generalize env.recv s'.world size = received
    obtain ⟨n, w⟩ := received
    cases n with
    | data n => exact ⟨⟨hsame.phaseHandler, hsame.log⟩, by simp⟩
    | closed => exact ⟨⟨hsame.phaseHandler, hsame.log⟩, by simp⟩
    | again => exact ⟨⟨hsame.phaseHandler, hsame.log⟩, by simp⟩
    | error => exact ⟨⟨hsame.phaseHandler, hsame.log⟩, by simp⟩

section Preread

variable {env} {k : ℕ} {i : StreamPhase} {h : H} {rc : HandlerRc} {ph : PhaseHandler H}

/-- The loop calls one handler as long as it asks for more data. -/
theorem prereadLoop_answered (hget : l[k]? = some (i, h)) (fuel : ℕ) (ha : Answered l k h s rc) :
    Adds s (prereadLoop env h fuel rc s).2 ∧
      Answered l k h (prereadLoop env h fuel rc s).2 ((prereadLoop env h fuel rc s).1.getD .again) := by
  induction fuel generalizing s rc with
  | zero =>
      unfold prereadLoop
      split
      · exact ⟨.refl s, ha⟩
      · next hrc =>
        obtain rfl := not_not.1 hrc
        exact ⟨.refl s, ha⟩
  | succ fuel ih =>
      unfold prereadLoop
      split
      · exact ⟨.refl s, ha⟩
      next hrc =>
      obtain rfl := not_not.1 hrc
      obtain ⟨hsame, hcode⟩ := prereadRecv_same env s
      have hlog : Ordered l (prereadRecv env s).2.log k := hsame.log ▸ ha.ordered hget nofun nofun
      have hcallable : Callable (prereadRecv env s).2.log k := hsame.log ▸ ha.callable (.inl rfl)
      have hk : (prereadRecv env s).2.phaseHandler = k := hsame.phaseHandler.trans ha.phaseHandler_eq
      generalize prereadRecv env s = received at hsame hcode hlog hcallable hk
      obtain ⟨rc, s'⟩ := received
      cases rc with
      | some rc =>
          obtain ⟨hok, hdeclined⟩ := hcode rc rfl
          exact ⟨.of_log hsame.log, .waiting hk hlog hcallable hok hdeclined⟩
      | none =>
          obtain ⟨hadds, hanswered⟩ := ih (answered_callHandler env hk hlog hcallable)
          exact ⟨(Adds.of_log hsame.log).trans ((adds_callHandler env h s').trans hadds), hanswered⟩

theorem prereadStart_answered (hk : s.phaseHandler = k) (hlog : Ordered l s.log k) (hcallable : Callable s.log k) :
    Adds s (prereadStart env h s).2 ∧ Answered l k h (prereadStart env h s).2 (prereadStart env h s).1 := by
  unfold prereadStart
  split
  · exact ⟨.refl s, .waiting hk hlog hcallable nofun nofun⟩
  split
  · exact ⟨.refl s, .waiting hk hlog hcallable nofun nofun⟩
  · exact ⟨adds_callHandler env h s, answered_callHandler env hk hlog hcallable⟩

theorem checks_prereadWait {s₀ : Session H W} (hadds : Adds s₀ s) (hk₀ : s₀.phaseHandler = k)
    (hget : l[k]? = some (i, h)) (ha : Answered l k h s .again) : Checks l s₀ (prereadWait env s) := by
  unfold prereadWait
  generalize env.handleReadEvent s.world = handled
  obtain ⟨handled, w⟩ := handled
  cases handled with
  | false =>
      have hlog := ha.ordered hget nofun nofun
      rw [← ha.phaseHandler_eq] at hlog
      exact @checks_finalize _ _ env l (s.withWorld w) s₀ (hadds.trans (.of_log rfl)) (ha.phaseHandler_eq.trans hk₀.symm)
        hlog ha.live _
  | true =>
      have hworld : SameCalls s (s.withWorld w) := ⟨rfl, rfl⟩
      simp only [Bool.not_true, Bool.false_eq_true, if_false]
      exact checks_same (.withWorld (.ite hworld (hworld.withWorld _)) _) hadds hk₀ hget ha

theorem checks_preread (fuel : ℕ) (hk : s.phaseHandler = k) (hlog : Ordered l s.log k) (hcallable : Callable s.log k)
    (hget : l[k]? = some (i, h)) (hph : EntryOf l k 0 ph) : Checks l s (ngxStreamCorePrereadPhase env fuel ph h s) := by
  obtain ⟨hstart, hanswered⟩ := @prereadStart_answered _ _ env _ _ _ h hk hlog hcallable
  obtain ⟨hloop, hanswered⟩ := @prereadLoop_answered _ _ env _ _ _ _ _ _ hget fuel hanswered
  have hadds := hstart.trans hloop
  unfold ngxStreamCorePrereadPhase
  dsimp only
  generalize prereadLoop env h fuel (prereadStart env h s).1 (prereadStart env h s).2 = result at hadds hanswered
  obtain ⟨rc, s'⟩ := result
  cases rc with
  | none => exact checks_stays hadds hk hget hanswered (.inl rfl) (.inr rfl)
  | some rc =>
      dsimp only
      split
      · next hrc =>
        obtain rfl := hrc
        exact checks_prereadWait hadds hk hget hanswered
      · split
        · exact checks_passOn (hadds.trans (.of_log rfl)) hk hget hph (hanswered.of_eq rfl rfl)
        · exact checks_passOn hadds hk hget hph hanswered

end Preread

end NginxDtls.PhaseEngine
