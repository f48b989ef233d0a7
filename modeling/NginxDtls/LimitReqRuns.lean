import NginxDtls.LimitReqRefs
import NginxDtls.LimitReqRate

/-! Every interleaving of the workers: what holds of the zones and the workers after any run, and what each step does to the
stored excesses and times. -/

namespace NginxDtls.LimitReq

open LimitConn Run

variable {N : ℕ}

/-! ### States -/

/-- The workers whose requests hold a reference to the node. -/
def State.holders (st : State N) (zone lr : ℕ) : Finset (Fin N) :=
  Finset.univ.filter fun w => (zone, lr) ∈ (st.worker w).held

/-- The invariant of every step. -/
structure State.Inv (st : State N) : Prop where
  zones : ∀ zone, ∃ T, (st.sh zone).Inv T
  count : ∀ zone, ∀ lr ∈ (st.sh zone).queue, ((st.sh zone).node lr).count = (st.holders zone lr).card
  refs : ∀ w zone lr, (zone, lr) ∈ (st.worker w).held → lr ∈ (st.sh zone).queue ∧
    ∃ i, (st.worker w).call.UsesZone i zone ∧ (st.worker w).call.key i = some ((st.sh zone).data lr)
  worker : ∀ w, (st.worker w).Inv

/-- What a step of a worker does to the stored excesses and times: nothing, or its request is charged in one zone at the node
of its key. -/
def Effect (rate : ℕ → ℕ) (now : ℕ) (slab : Slab) (sh sh' : ℕ → Shctx) (worker worker' : Worker) : Prop :=
  (worker'.charged = worker.charged ∧ ∀ zone, Untouched (rate zone) now slab (sh zone) (sh' zone)) ∨
    ∃ zone key i, worker.call.UsesZone i zone ∧ worker.call.key i = some key ∧ worker'.charged = zone :: worker.charged ∧
      ChargedAt (rate zone) now slab key (sh zone) (sh' zone) ∧ ∀ zone' ≠ zone, sh' zone' = sh zone'

theorem State.card_holders (st : State N) (w : Fin N) (worker : Worker) (sh : ℕ → Shctx) (zone lr : ℕ) :
    (((State.mk sh (Function.update st.worker w worker)).holders zone lr).card : ℤ) =
      (st.holders zone lr).card - (if (zone, lr) ∈ (st.worker w).held then 1 else 0) +
        if (zone, lr) ∈ worker.held then 1 else 0 := by
  rw [holders, holders, Finset.card_filter, Finset.card_filter]
  have hold := Finset.add_sum_erase Finset.univ (fun v => if (zone, lr) ∈ (st.worker v).held then 1 else 0)
    (Finset.mem_univ w)
  have hnew := Finset.add_sum_erase Finset.univ
    (fun v => if (zone, lr) ∈ (Function.update st.worker w worker v).held then 1 else 0) (Finset.mem_univ w)
  have hrest : ∑ v ∈ Finset.univ.erase w, (if (zone, lr) ∈ (Function.update st.worker w worker v).held then 1 else 0) =
      ∑ v ∈ Finset.univ.erase w, if (zone, lr) ∈ (st.worker v).held then 1 else 0 :=
    Finset.sum_congr rfl fun v hv => by rw [Function.update_of_ne (Finset.ne_of_mem_erase hv)]
  rw [hrest, Function.update_self] at hnew
  dsimp only at hold hnew ⊢
  rw [← hold, ← hnew]
  push_cast
  ring

namespace State.Inv

variable {st : State N} {w : Fin N}

/-- A step of a worker in one zone. -/
theorem change (h : st.Inv) {zone : ℕ} {sh' : Shctx} {worker' : Worker} {T : Zipper.BTree ℕ} (hzone : sh'.Inv T)
    (hguarded : Guarded (st.sh zone) sh') (hcall : worker'.call = (st.worker w).call) (hworker : worker'.Inv)
    (hother : ∀ zone' ≠ zone, ∀ lr, (zone', lr) ∈ worker'.held ↔ (zone', lr) ∈ (st.worker w).held)
    (hheld : ∀ lr, (zone, lr) ∈ worker'.held → lr ∈ sh'.queue ∧
      ∃ i, (st.worker w).call.UsesZone i zone ∧ (st.worker w).call.key i = some (sh'.data lr))
    (hcount : ∀ lr ∈ sh'.queue, (sh'.node lr).count =
      (if lr ∈ (st.sh zone).queue ∧ sh'.data lr = (st.sh zone).data lr then
        ((st.sh zone).node lr).count - (if (zone, lr) ∈ (st.worker w).held then 1 else 0) else 0) +
        if (zone, lr) ∈ worker'.held then 1 else 0) :
    (State.mk (Function.update st.sh zone sh') (Function.update st.worker w worker')).Inv := by
  -- a node with references has the count of its holders, so that it is still there
  have hstays : ∀ v lr, (zone, lr) ∈ (st.worker v).held → lr ∈ sh'.queue ∧ sh'.data lr = (st.sh zone).data lr := by
    intro v lr hlr
    obtain ⟨hmem, -⟩ := h.refs v zone lr hlr
    refine hguarded lr hmem ?_
    have hcard : 0 < (st.holders zone lr).card :=
      Finset.card_pos.mpr ⟨v, Finset.mem_filter.mpr ⟨Finset.mem_univ v, hlr⟩⟩
    rw [h.count zone lr hmem]
    exact_mod_cast hcard.ne'
  refine ⟨fun z => ?_, fun z lr hlr => ?_, fun v z lr hlr => ?_, fun v => ?_⟩
  · by_cases hz : z = zone
    · subst hz
      show ∃ T, (Function.update st.sh z sh' z).Inv T
      rw [Function.update_self]
      exact ⟨T, hzone⟩
    · show ∃ T, (Function.update st.sh zone sh' z).Inv T
      rw [Function.update_of_ne hz]
      exact h.zones z
  · rw [card_holders]
    by_cases hz : z = zone
    · subst hz
      dsimp only at hlr ⊢
      rw [Function.update_self] at hlr ⊢
      rw [hcount lr hlr]
      by_cases hold : lr ∈ (st.sh z).queue ∧ sh'.data lr = (st.sh z).data lr
      · rw [if_pos hold, h.count z lr hold.1]
      · rw [if_neg hold]
        have hnone : ∀ v, (z, lr) ∉ (st.worker v).held := fun v hv =>
          hold ⟨(h.refs v z lr hv).1, (hstays v lr hv).2⟩
        have hempty : st.holders z lr = ∅ := Finset.filter_eq_empty_iff.mpr fun v _ => hnone v
        rw [hempty, if_neg (hnone w)]
        simp
    · dsimp only at hlr ⊢
      rw [Function.update_of_ne hz] at hlr ⊢
      rw [h.count z lr hlr, if_congr (hother z hz lr) rfl rfl]
      ring
  · by_cases hv : v = w
    · subst hv
      dsimp only at hlr ⊢
      rw [Function.update_self] at hlr ⊢
      rw [hcall]
      by_cases hz : z = zone
      · subst hz
        rw [Function.update_self]
        exact hheld lr hlr
      · rw [Function.update_of_ne hz]
        exact h.refs v z lr ((hother z hz lr).mp hlr)
    · dsimp only at hlr ⊢
      rw [Function.update_of_ne hv] at hlr ⊢
      by_cases hz : z = zone
      · subst hz
        rw [Function.update_self]
        obtain ⟨hmem, hdata⟩ := hstays v lr hlr
        rw [hdata]
        exact ⟨hmem, (h.refs v z lr hlr).2⟩
      · rw [Function.update_of_ne hz]
        exact h.refs v z lr hlr
  · by_cases hv : v = w
    · subst hv
      show (Function.update st.worker v worker' v).Inv
      rw [Function.update_self]
      exact hworker
    · show (Function.update st.worker w worker' v).Inv
      rw [Function.update_of_ne hv]
      exact h.worker v

/-- A step of a worker outside the zones. -/
theorem goOn (h : st.Inv) {worker' : Worker} (hheld : worker'.held = (st.worker w).held)
    (hcall : worker'.call = (st.worker w).call ∨ worker'.held = []) (hworker : worker'.Inv) :
    (State.mk st.sh (Function.update st.worker w worker')).Inv := by
  refine ⟨h.zones, fun zone lr hlr => ?_, fun v zone lr hlr => ?_, fun v => ?_⟩
  · rw [card_holders, hheld, h.count zone lr hlr]
    ring
  · by_cases hv : v = w
    · subst hv
      dsimp only at hlr ⊢
      rw [Function.update_self] at hlr ⊢
      rcases hcall with hcall | hnil
      · rw [hcall]
        exact h.refs v zone lr (hheld ▸ hlr)
      · rw [hnil] at hlr
        cases hlr
    · dsimp only at hlr ⊢
      rw [Function.update_of_ne hv] at hlr ⊢
      exact h.refs v zone lr hlr
  · by_cases hv : v = w
    · subst hv
      show (Function.update st.worker v worker' v).Inv
      rw [Function.update_self]
      exact hworker
    · show (Function.update st.worker w worker' v).Inv
      rw [Function.update_of_ne hv]
      exact h.worker v

end State.Inv

/-- Nothing is done to the zones. -/
theorem Effect.nothing (rate : ℕ → ℕ) (now : ℕ) (slab : Slab) (sh : ℕ → Shctx) {worker worker' : Worker}
    (hcharged : worker'.charged = worker.charged) : Effect rate now slab sh sh worker worker' :=
  Or.inl ⟨hcharged, fun zone => Untouched.refl (rate zone) now slab (sh zone)⟩

/-- One zone is changed, with nothing stored in it. -/
theorem Effect.untouched {rate : ℕ → ℕ} {now : ℕ} {slab : Slab} {sh : ℕ → Shctx} {zone : ℕ} {sh' : Shctx}
    {worker worker' : Worker} (hcharged : worker'.charged = worker.charged)
    (h : Untouched (rate zone) now slab (sh zone) sh') :
    Effect rate now slab sh (Function.update sh zone sh') worker worker' := by
  refine Or.inl ⟨hcharged, fun z => ?_⟩
  by_cases hz : z = zone
  · subst hz
    rw [Function.update_self]
    exact h
  · rw [Function.update_of_ne hz]
    exact Untouched.refl (rate z) now slab (sh z)

theorem Effect.charge {rate : ℕ → ℕ} {now : ℕ} {slab : Slab} {sh : ℕ → Shctx} {zone i : ℕ} {key : List UInt8} {sh' : Shctx}
    {worker worker' : Worker} (huses : worker.call.UsesZone i zone) (hkey : worker.call.key i = some key)
    (hcharged : worker'.charged = zone :: worker.charged) (h : ChargedAt (rate zone) now slab key (sh zone) sh') :
    Effect rate now slab sh (Function.update sh zone sh') worker worker' := by
  refine Or.inr ⟨zone, key, i, huses, hkey, hcharged, ?_, fun z hz => Function.update_of_ne hz ..⟩
  rw [Function.update_self]
  exact h

/-! ### One step -/

/-- What a step of a worker leaves, with the state that it leaves it in. -/
def Goes (rate : ℕ → ℕ) (now : ℕ) (slab : Slab) (st : State N) (w : Fin N) (result : Option ((ℕ → Shctx) × Worker)) : Prop :=
  ∃ sh' worker', result = some (sh', worker') ∧ (State.mk sh' (Function.update st.worker w worker')).Inv ∧
    worker'.call = (st.worker w).call ∧ Effect rate now slab st.sh sh' (st.worker w) worker'

namespace State.Inv

variable {st : State N} {w : Fin N}

/-- A zone that a worker has looked into without a reference to it, before or after. -/
theorem pass (h : st.Inv) {zone : ℕ} {sh' : Shctx} {T : Zipper.BTree ℕ} (hzone : sh'.Inv T)
    (hguarded : Guarded (st.sh zone) sh') (hnone : ∀ lr, (zone, lr) ∉ (st.worker w).held)
    (hcount : ∀ lr ∈ sh'.queue, (sh'.node lr).count =
      if lr ∈ (st.sh zone).queue ∧ sh'.data lr = (st.sh zone).data lr then ((st.sh zone).node lr).count else 0)
    {worker' : Worker} (hheld : worker'.held = (st.worker w).held) (hcall : worker'.call = (st.worker w).call)
    (hworker : worker'.Inv) :
    (State.mk (Function.update st.sh zone sh') (Function.update st.worker w worker')).Inv := by
  refine h.change hzone hguarded hcall hworker (fun zone' _ lr => by rw [hheld]) (fun lr hlr => ?_) fun lr hlr => ?_
  · rw [hheld] at hlr
    exact absurd hlr (hnone lr)
  · rw [hcount lr hlr, hheld, if_neg (hnone lr), sub_zero, add_zero]

/-- A worker without a reference to the zone takes one to the node of its key. -/
theorem take (h : st.Inv) {zone lr i : ℕ} {sh' : Shctx} {T : Zipper.BTree ℕ} (hzone : sh'.Inv T)
    (hguarded : Guarded (st.sh zone) sh') (hnone : ∀ lr', (zone, lr') ∉ (st.worker w).held)
    (huses : (st.worker w).call.UsesZone i zone) (hkey : (st.worker w).call.key i = some (sh'.data lr))
    (hmem : lr ∈ sh'.queue)
    (hcount : ∀ m ∈ sh'.queue, (sh'.node m).count =
      (if m ∈ (st.sh zone).queue ∧ sh'.data m = (st.sh zone).data m then ((st.sh zone).node m).count else 0) +
        if some lr = some m then 1 else 0)
    {worker' : Worker} (hheld : worker'.held = (zone, lr) :: (st.worker w).held)
    (hnode : worker'.node = Function.update (st.worker w).node zone (some lr)) (hcall : worker'.call = (st.worker w).call)
    (hat : worker'.At) :
    (State.mk (Function.update st.sh zone sh') (Function.update st.worker w worker')).Inv := by
  have hhere : ∀ m, (zone, m) ∈ worker'.held ↔ some lr = some m := by
    intro m
    rw [hheld, List.mem_cons, Prod.mk.injEq, Option.some.injEq]
    exact ⟨fun hor => hor.elim (fun heq => heq.2.symm) fun hm => absurd hm (hnone m), fun heq => Or.inl ⟨rfl, heq.symm⟩⟩
  have hthere : ∀ zone' ≠ zone, ∀ m, (zone', m) ∈ worker'.held ↔ (zone', m) ∈ (st.worker w).held := by
    intro zone' hz m
    rw [hheld, List.mem_cons, Prod.mk.injEq]
    exact ⟨fun hor => hor.elim (fun heq => absurd heq.1 hz) id, Or.inr⟩
  refine h.change hzone hguarded hcall ⟨fun zone' m => ?_, hat⟩ hthere (fun m hm => ?_) fun m hm => ?_
  · rw [hnode]
    by_cases hz : zone' = zone
    · subst hz
      rw [Function.update_self, hhere]
    · rw [Function.update_of_ne hz, hthere zone' hz, (h.worker w).ctx zone' m]
  · obtain rfl := Option.some.inj ((hhere m).mp hm)
    exact ⟨hmem, i, huses, hkey⟩
  · rw [hcount m hm, if_neg (hnone m), sub_zero, if_congr (hhere m) rfl rfl]

section Look

variable {n excess limit : ℕ} {rc : Rc} {l : Limit} {key : List UInt8} {now : ℕ} {slab : Slab} {looked : Looked}
  {T : Zipper.BTree ℕ} (h : st.Inv) (rate : ℕ → ℕ) (hpc : (st.worker w).pc = .looking n rc excess limit)
  (hlimit : (st.worker w).call.conf.limits[n]? = some l) (hkey : (st.worker w).call.key n = some key)
  (husable : (st.worker w).call.Usable n) (hinv : looked.sh.Inv T)
  (hlooked : LookedUp (rate l.zone) l.burst (st.sh l.zone) key now (n = (st.worker w).call.conf.limits.length - 1) slab looked)

include h hpc hlimit hkey husable hinv hlooked

/-- The zone lets the request in, and another one is to be looked into. -/
theorem look_again {lr : ℕ} (hagain : looked.rc = .again) (hnode : looked.node = some lr) (hmem : lr ∈ looked.sh.queue)
    (hdata : looked.sh.data lr = key) :
    Goes rate now slab st w (some (Function.update st.sh l.zone looked.sh,
      { st.worker w with
        node := Function.update (st.worker w).node l.zone (some lr)
        held := (l.zone, lr) :: (st.worker w).held
        pc := .looking (n + 1) .again looked.excess n })) := by
  obtain ⟨-, hat⟩ := h.worker w
  rw [Worker.At, hpc] at hat
  obtain ⟨hstatus, hpassed, hnil, -, -⟩ := hat
  have hzone : (st.worker w).call.conf.limits[n]?.map Limit.zone = some l.zone := by rw [hlimit]; rfl
  have huses : (st.worker w).call.UsesZone n l.zone := ⟨hzone, husable⟩
  have heffect := hlooked.effect
  rw [hagain, if_neg (by decide)] at heffect
  have hcount := hlooked.count
  rw [hnode] at hcount
  have hpassed' := @Worker.Passed.hold _ n l.zone lr hpassed huses (Function.update (st.worker w).node l.zone (some lr))
  exact ⟨_, _, rfl, h.take hinv heffect.guarded (hpassed.not_held hzone) huses (hdata ▸ hkey) hmem hcount rfl rfl rfl
    ⟨hstatus, hpassed', hnil, (List.getElem?_eq_some_iff.mp hlimit).1, Or.inl rfl⟩, rfl, Effect.untouched rfl heffect⟩

/-- The loop ends here: the request is charged in the last zone, or turned away. -/
theorem look_end (hnode : looked.node = none)
    (hend : looked.rc = .ok ∧ decide (n = (st.worker w).call.conf.limits.length - 1) = true ∨ looked.rc = .busy ∨
      looked.rc = .error) :
    Goes rate now slab st w (some (Function.update st.sh l.zone looked.sh,
      (if looked.rc = .ok then { st.worker w with charged := l.zone :: (st.worker w).charged } else st.worker w).leave rate n
        looked.rc looked.excess n)) := by
  obtain ⟨hctx, hat⟩ := h.worker w
  rw [Worker.At, hpc] at hat
  obtain ⟨hstatus, hpassed, hnil, hle, -⟩ := hat
  have hzone : (st.worker w).call.conf.limits[n]?.map Limit.zone = some l.zone := by rw [hlimit]; rfl
  have hlt := (List.getElem?_eq_some_iff.mp hlimit).1
  have heffect := hlooked.effect
  have hguarded : Guarded (st.sh l.zone) looked.sh := by
    split at heffect
    · exact heffect.guarded
    · exact heffect.guarded
  have hcount : ∀ lr ∈ looked.sh.queue, (looked.sh.node lr).count =
      if lr ∈ (st.sh l.zone).queue ∧ looked.sh.data lr = (st.sh l.zone).data lr then ((st.sh l.zone).node lr).count
      else 0 := by
    intro lr hlr
    rw [hlooked.count lr hlr, hnode, if_neg (Option.some_ne_none lr).symm, add_zero]
  have hpass : ∀ worker' : Worker, worker'.held = (st.worker w).held → worker'.call = (st.worker w).call → worker'.Inv →
      (State.mk (Function.update st.sh l.zone looked.sh) (Function.update st.worker w worker')).Inv :=
    fun _ => h.pass hinv hguarded (hpassed.not_held hzone) hcount
  rcases hend with ⟨hok, haccount⟩ | hrefused
  · rw [if_pos hok] at heffect ⊢
    have hlast : n + 1 = (st.worker w).call.conf.limits.length := by
      have heq := of_decide_eq_true haccount
      omega
    have hzones : (st.worker w).call.zonesFrom n = [l.zone] := by
      rw [Call.zonesFrom_succ hlimit, if_pos husable, hlast, Call.zonesFrom_length]
    have hleave := @Worker.leave_at { st.worker w with charged := l.zone :: (st.worker w).charged } rate n
      looked.excess n looked.rc hstatus hpassed hle (fun hd => by rw [hok] at hd; cases hd)
      (by rw [if_pos (Or.inr hok), hzones, hnil])
    exact ⟨_, _, rfl, hpass _ (Worker.leave_held ..) (Worker.leave_call ..) (@Worker.leave_inv
      { st.worker w with charged := l.zone :: (st.worker w).charged } hctx _ _ _ _ _ hleave),
      Worker.leave_call .., Effect.charge ⟨hzone, husable⟩ hkey (Worker.leave_charged ..) heffect⟩
  · have hne : ∀ rc', rc' ≠ Rc.busy → rc' ≠ Rc.error → looked.rc ≠ rc' := by
      rintro _ hbusy herror rfl
      exact hrefused.elim hbusy herror
    have hok := hne .ok (by decide) (by decide)
    rw [if_neg hok] at heffect ⊢
    have hleave := @Worker.leave_at _ rate n looked.excess n looked.rc hstatus hpassed hle
      (fun hd => absurd hd (hne .declined (by decide) (by decide)))
      (by rw [if_neg (not_or.mpr ⟨hne .again (by decide) (by decide), hok⟩)]; exact hnil)
    exact ⟨_, _, rfl, hpass _ (Worker.leave_held ..) (Worker.leave_call ..) (Worker.leave_inv hctx hleave),
      Worker.leave_call .., Effect.untouched (Worker.leave_charged ..) heffect⟩

end Look

theorem look (h : st.Inv) (rate : ℕ → ℕ) {n : ℕ} {rc : Rc} {excess limit : ℕ}
    (hpc : (st.worker w).pc = .looking n rc excess limit) (now : ℕ) (slab slab' : Slab) :
    Goes rate now slab st w ((st.worker w).look rate st.sh n rc excess limit now slab slab') := by
  obtain ⟨hctx, hat⟩ := h.worker w
  rw [Worker.At, hpc] at hat
  obtain ⟨hstatus, hpassed, hnil, hle, hrc⟩ := hat
  rw [Worker.look]
  cases hlimit : (st.worker w).call.conf.limits[n]? with
  | none =>
      have hend : n = (st.worker w).call.conf.limits.length := by
        have hout := List.getElem?_eq_none_iff.mp hlimit
        omega
      have hcharged : (st.worker w).charged =
          if rc = .again ∨ rc = .ok then (st.worker w).call.zonesFrom n else [] := by
        rw [hend, Call.zonesFrom_length, ite_self]
        exact hnil
      have hleave := Worker.leave_at rate excess limit hstatus hpassed hle (fun hdeclined => by
        rcases hrc with hagain | ⟨-, hnone⟩
        · rw [hagain] at hdeclined
          cases hdeclined
        · exact hnone) hcharged
      exact ⟨_, _, rfl, h.goOn (Worker.leave_held ..) (Or.inl (Worker.leave_call ..)) (Worker.leave_inv hctx hleave),
        Worker.leave_call .., Effect.nothing rate now slab st.sh (Worker.leave_charged ..)⟩
  | some l =>
      have hlt : n < (st.worker w).call.conf.limits.length := (List.getElem?_eq_some_iff.mp hlimit).1
      dsimp only
      cases hkey : (st.worker w).call.key n with
      | none =>
          have hnot : ¬(st.worker w).call.status.Accepted := by
            rw [hstatus]
            decide
          exact ⟨_, _, rfl, h.goOn rfl (Or.inl rfl) ⟨hctx, hstatus, hpassed, hnil, hle, hnot⟩, rfl,
            Effect.nothing rate now slab st.sh rfl⟩
      | some key =>
          dsimp only
          by_cases hlength : key.length = 0 ∨ 65535 < key.length
          · rw [if_pos hlength]
            have hnot : ¬(st.worker w).call.Usable n := by
              rintro ⟨key', hkey', hne, hlong⟩
              rw [hkey] at hkey'
              obtain rfl := Option.some.inj hkey'
              omega
            have hrc' : rc = .again ∨ rc = .declined ∧ ∀ i < n + 1, ¬(st.worker w).call.Usable i := by
              rcases hrc with hagain | ⟨hdeclined, hnone⟩
              · exact Or.inl hagain
              · refine Or.inr ⟨hdeclined, fun i hi => ?_⟩
                rcases Nat.lt_succ_iff_lt_or_eq.mp hi with hi | rfl
                · exact hnone i hi
                · exact hnot
            exact ⟨_, _, rfl, h.goOn rfl (Or.inl rfl) ⟨hctx, hstatus, hpassed.skip hnot, hnil, hlt, hrc'⟩, rfl,
              Effect.nothing rate now slab st.sh rfl⟩
          · rw [if_neg hlength]
            have husable : (st.worker w).call.Usable n := ⟨key, hkey, by omega⟩
            obtain ⟨T, hinv⟩ := h.zones l.zone
            obtain ⟨looked, T', hlookup, hinv', hlooked⟩ := lookup_spec hinv (rate l.zone) l.burst key now
              (n = (st.worker w).call.conf.limits.length - 1) slab slab'
            rw [hlookup, Option.bind_eq_bind, Option.bind_some]
            rcases hlooked.ref with ⟨hagain, -, lr, hnode, hmem, hdata⟩ | ⟨hnode, hend⟩
            · have hgoes := h.look_again rate hpc hlimit hkey husable hinv' hlooked hagain hnode hmem hdata
              rw [hagain, if_pos rfl, hnode]
              exact hgoes
            · have hagain : looked.rc ≠ .again := by
                rcases hend with ⟨hok, -⟩ | hbusy | herror
                · rw [hok]
                  decide
                · rw [hbusy]
                  decide
                · rw [herror]
                  decide
              have hgoes := h.look_end rate hpc hlimit hkey husable hinv' hlooked hnode hend
              rw [hnode, if_neg hagain]
              exact hgoes

/-- A reference that a worker gives back, with the node charged or not. -/
theorem giveBack (h : st.Inv) {n lr : ℕ} {l : Limit} (hlimit : (st.worker w).call.conf.limits[n]? = some l)
    (hpassed : (st.worker w).Passed (n + 1)) (hnode : (st.worker w).node l.zone = some lr) (node : LimitReqNode)
    (hdata : node.data = (st.sh l.zone).data lr) (hcount : node.count = ((st.sh l.zone).node lr).count - 1)
    (worker' : Worker) (hheld : worker'.held = ((st.worker w).release l.zone).held)
    (hctx : worker'.node = ((st.worker w).release l.zone).node) (hcall : worker'.call = (st.worker w).call)
    (hat : worker'.At) :
    (State.mk (Function.update st.sh l.zone ((st.sh l.zone).setNode lr node))
      (Function.update st.worker w worker')).Inv ∧ lr ∈ (st.sh l.zone).queue ∧
      (st.worker w).call.UsesZone n l.zone ∧ (st.worker w).call.key n = some ((st.sh l.zone).data lr) := by
  have hzone : (st.worker w).call.conf.limits[n]?.map Limit.zone = some l.zone := by rw [hlimit]; rfl
  have hold := (h.worker w).ctx
  have hmem := (hold l.zone lr).mp hnode
  obtain ⟨hqueue, i, huses, hkey⟩ := h.refs w l.zone lr hmem
  obtain rfl := Call.zone_unique huses.1 hzone
  obtain ⟨T, hinv⟩ := h.zones l.zone
  have hsame := setNode_data (st.sh l.zone) lr node hdata
  have hmem' : ∀ zone lr', (zone, lr') ∈ worker'.held ↔ (zone, lr') ∈ (st.worker w).held ∧ zone ≠ l.zone := fun zone lr' => by
    rw [hheld, Worker.release, List.mem_filter, decide_eq_true_eq]
  refine ⟨h.change (hinv.setNode hdata) (fun m hm _ => ⟨hm, hsame m⟩) hcall ⟨?_, hat⟩ ?_ ?_ ?_, hqueue, huses, hkey⟩
  · intro zone lr'
    rw [hctx, hmem']
    show Function.update (st.worker w).node l.zone none zone = some lr' ↔ (zone, lr') ∈ (st.worker w).held ∧ zone ≠ l.zone
    by_cases hz : zone = l.zone
    · subst hz
      rw [Function.update_self]
      exact ⟨fun heq => absurd heq.symm (Option.some_ne_none lr'), fun hand => absurd rfl hand.2⟩
    · rw [Function.update_of_ne hz, hold zone lr']
      exact ⟨fun hm => ⟨hm, hz⟩, fun hand => hand.1⟩
  · intro zone hz lr'
    rw [hmem']
    exact ⟨fun hand => hand.1, fun hm => ⟨hm, hz⟩⟩
  · intro lr' hlr'
    exact absurd rfl ((hmem' l.zone lr').mp hlr').2
  · intro lr' hlr'
    have hnot : (l.zone, lr') ∉ worker'.held := fun hm => ((hmem' l.zone lr').mp hm).2 rfl
    rw [if_pos ⟨hlr', hsame lr'⟩, if_neg hnot, add_zero]
    by_cases heq : lr' = lr
    · subst heq
      rw [if_pos hmem, setNode_self, hcount]
    · have hother : (l.zone, lr') ∉ (st.worker w).held := fun hm => by
        have hsome := (hold l.zone lr').mpr hm
        exact heq (Option.some.inj (hsome.symm.trans hnode))
      rw [if_neg hother, setNode_of_ne _ _ heq, sub_zero]

theorem account (h : st.Inv) (rate : ℕ → ℕ) {n excess limit maxDelay : ℕ}
    (hpc : (st.worker w).pc = .accounting n excess limit maxDelay) (now : ℕ) (slab : Slab) (ready : Bool) :
    Goes rate now slab st w ((st.worker w).account rate st.sh n excess limit maxDelay now ready) := by
  obtain ⟨hctx, hat⟩ := h.worker w
  rw [Worker.At, hpc] at hat
  obtain ⟨hstatus, hpassed, hcharged, hle⟩ := hat
  cases n with
  | zero =>
      have hreturn : ∀ returned status, Status.Accepted status →
          Worker.At { st.worker w with pc := .returned returned status } := fun returned status haccepted =>
        ⟨hpassed.nil, fun _ => by rw [if_pos haccepted]; exact hcharged, fun hne => absurd hstatus hne⟩
      rw [Worker.account]
      split
      · exact ⟨_, _, rfl, h.goOn rfl (Or.inl rfl) ⟨hctx, hreturn _ _ (by decide)⟩, rfl, Effect.nothing rate now slab st.sh rfl⟩
      · split
        · exact ⟨_, _, rfl, h.goOn rfl (Or.inl rfl) ⟨hctx, hreturn _ _ (by decide)⟩, rfl, Effect.nothing rate now slab st.sh rfl⟩
        · exact ⟨_, _, rfl, h.goOn rfl (Or.inl rfl) ⟨hctx, hreturn _ _ (by decide)⟩, rfl, Effect.nothing rate now slab st.sh rfl⟩
  | succ n =>
      obtain ⟨l, hlimit⟩ : ∃ l, (st.worker w).call.conf.limits[n]? = some l :=
        ⟨_, List.getElem?_eq_some_iff.mpr ⟨hle, rfl⟩⟩
      have hzone : (st.worker w).call.conf.limits[n]?.map Limit.zone = some l.zone := by rw [hlimit]; rfl
      rw [Worker.account, hlimit, Option.bind_eq_bind, Option.bind_some]
      cases hnode : (st.worker w).node l.zone with
      | none =>
          obtain ⟨hpassed', hnot⟩ := hpassed.back hzone fun lr hmem => by
            rw [(hctx l.zone lr).mpr hmem] at hnode
            cases hnode
          have hzones : (st.worker w).charged = (st.worker w).call.zonesFrom n := by
            rw [Call.zonesFrom_succ hlimit, if_neg hnot]
            exact hcharged
          exact ⟨_, _, rfl, h.goOn rfl (Or.inl rfl) ⟨hctx, hstatus, hpassed', hzones, Nat.le_of_succ_le hle⟩, rfl,
            Effect.nothing rate now slab st.sh rfl⟩
      | some lr =>
          have hmem := (hctx l.zone lr).mp hnode
          obtain ⟨-, i, huses, -⟩ := h.refs w l.zone lr hmem
          obtain rfl := Call.zone_unique huses.1 hzone
          have hzones : l.zone :: (st.worker w).charged = (st.worker w).call.zonesFrom i := by
            rw [Call.zonesFrom_succ hlimit, if_pos huses.2, hcharged]
          have hgoes : ∀ excess limit maxDelay, Goes rate now slab st w (some (Function.update st.sh l.zone
              ((st.sh l.zone).setNode lr { charge (rate l.zone) now ((st.sh l.zone).node lr) with
                count := (charge (rate l.zone) now ((st.sh l.zone).node lr)).count - 1 }),
              { (st.worker w).release l.zone with
                charged := l.zone :: (st.worker w).charged
                pc := .accounting i excess limit maxDelay })) := by
            intro excess limit maxDelay
            obtain ⟨hinv, hqueue, huses, hkey⟩ := h.giveBack hlimit hpassed hnode
              { charge (rate l.zone) now ((st.sh l.zone).node lr) with
                count := (charge (rate l.zone) now ((st.sh l.zone).node lr)).count - 1 } rfl rfl
              { (st.worker w).release l.zone with
                charged := l.zone :: (st.worker w).charged
                pc := .accounting i excess limit maxDelay } rfl rfl rfl
              ⟨hstatus, hpassed.release hzone, hzones, Nat.le_of_succ_le hle⟩
            exact ⟨_, _, rfl, hinv, rfl, Effect.charge huses hkey rfl
              (chargedAt_setNode slab (fun _ => Iff.rfl) hqueue rfl rfl rfl)⟩
          dsimp only
          split
          · exact hgoes _ _ _
          · split
            · exact hgoes _ _ _
            · exact hgoes _ _ _

theorem unlock (h : st.Inv) (rate : ℕ → ℕ) {n : ℕ} {returned : Returned} {status : Status}
    (hpc : (st.worker w).pc = .unlocking n returned status) (now : ℕ) (slab : Slab) :
    Goes rate now slab st w ((st.worker w).unlock st.sh n returned status) := by
  obtain ⟨hctx, hat⟩ := h.worker w
  rw [Worker.At, hpc] at hat
  obtain ⟨hstatus, hpassed, hnil, hle, hnot⟩ := hat
  cases n with
  | zero =>
      have hreturn : Worker.At { st.worker w with pc := .returned returned status } :=
        ⟨hpassed.nil, fun _ => by rw [if_neg hnot]; exact hnil, fun hne => absurd hstatus hne⟩
      exact ⟨_, _, rfl, h.goOn rfl (Or.inl rfl) ⟨hctx, hreturn⟩, rfl, Effect.nothing rate now slab st.sh rfl⟩
  | succ n =>
      obtain ⟨l, hlimit⟩ : ∃ l, (st.worker w).call.conf.limits[n]? = some l :=
        ⟨_, List.getElem?_eq_some_iff.mpr ⟨hle, rfl⟩⟩
      have hzone : (st.worker w).call.conf.limits[n]?.map Limit.zone = some l.zone := by rw [hlimit]; rfl
      rw [Worker.unlock, hlimit, Option.bind_eq_bind, Option.bind_some]
      cases hnode : (st.worker w).node l.zone with
      | none =>
          obtain ⟨hpassed', -⟩ := hpassed.back hzone fun lr hmem => by
            rw [(hctx l.zone lr).mpr hmem] at hnode
            cases hnode
          exact ⟨_, _, rfl, h.goOn rfl (Or.inl rfl) ⟨hctx, hstatus, hpassed', hnil, Nat.le_of_succ_le hle, hnot⟩, rfl,
            Effect.nothing rate now slab st.sh rfl⟩
      | some lr =>
          have hinv := h.giveBack hlimit hpassed hnode
            { (st.sh l.zone).node lr with count := ((st.sh l.zone).node lr).count - 1 } rfl rfl
            { (st.worker w).release l.zone with pc := .unlocking n returned status } rfl rfl rfl
            ⟨hstatus, hpassed.release hzone, hnil, Nat.le_of_succ_le hle, hnot⟩
          exact ⟨_, _, rfl, hinv.1, rfl, Effect.untouched rfl (untouched_setNode _ now slab (fun _ => Iff.rfl) rfl rfl rfl)⟩

/-- A step of a worker. -/
theorem step (h : st.Inv) (rate : ℕ → ℕ) (w : Fin N) (now : ℕ) (slab slab' : Slab) (ready : Bool) :
    Goes rate now slab st w ((st.worker w).step rate st.sh now slab slab' ready) := by
  rw [Worker.step]
  cases hpc : (st.worker w).pc with
  | looking n rc excess limit => exact h.look rate hpc now slab slab'
  | accounting n excess limit maxDelay => exact h.account rate hpc now slab ready
  | unlocking n returned status => exact h.unlock rate hpc now slab
  | returned returned status =>
      exact ⟨_, _, rfl, h.goOn rfl (Or.inl rfl) (h.worker w), rfl, Effect.nothing rate now slab st.sh rfl⟩

/-- A call of the handler. -/
theorem start (h : st.Inv) (w : Fin N) (call : Call) :
    (State.mk st.sh (Function.update st.worker w ((st.worker w).start call))).Inv := by
  obtain ⟨hctx, hat⟩ := h.worker w
  rw [Worker.start]
  cases hpc : (st.worker w).pc with
  | returned returned status =>
      rw [Worker.At, hpc] at hat
      have hempty := hat.1
      refine h.goOn rfl (Or.inr hempty) ⟨hctx, ?_⟩
      by_cases hstatus : call.status = .unset
      · have hpassed : Worker.Passed { st.worker w with call := call, pc := .looking 0 .declined 0 0, charged := [] } 0 := by
          intro zone
          constructor
          · rintro ⟨lr, hlr⟩
            have hmem : (zone, lr) ∈ (st.worker w).held := hlr
            rw [hempty] at hmem
            cases hmem
          · rintro ⟨i, hi, -⟩
            exact absurd hi (Nat.not_lt_zero i)
        rw [if_neg (not_not.mpr hstatus)]
        exact ⟨hstatus, hpassed, rfl, Nat.zero_le _, Or.inr ⟨rfl, fun i hi => absurd hi (Nat.not_lt_zero i)⟩⟩
      · rw [if_pos hstatus]
        exact ⟨hempty, fun hunset => absurd hunset hstatus, fun _ => rfl⟩
  | looking n rc excess limit => exact h.goOn rfl (Or.inl rfl) (h.worker w)
  | accounting n excess limit maxDelay => exact h.goOn rfl (Or.inl rfl) (h.worker w)
  | unlocking n returned status => exact h.goOn rfl (Or.inl rfl) (h.worker w)

end State.Inv

theorem Effect.guarded {rate : ℕ → ℕ} {now : ℕ} {slab : Slab} {sh sh' : ℕ → Shctx} {worker worker' : Worker}
    (h : Effect rate now slab sh sh' worker worker') (zone : ℕ) : Guarded (sh zone) (sh' zone) := by
  rcases h with ⟨-, huntouched⟩ | ⟨zone', key, i, -, -, -, hcharged, hother⟩
  · exact (huntouched zone).guarded
  · by_cases hz : zone = zone'
    · subst hz
      exact hcharged.guarded
    · rw [hother zone hz]
      exact (Untouched.refl (rate zone) now slab (sh zone)).guarded

/-- A step is always possible, and frees no node with references. -/
theorem State.Inv.next {st : State N} (h : st.Inv) (rate : ℕ → ℕ) (e : Event N) :
    ∃ st', LimitReq.step rate st e = some st' ∧ st'.Inv ∧ ∀ zone, Guarded (st.sh zone) (st'.sh zone) := by
  cases e with
  | start w call => exact ⟨_, rfl, h.start w call, fun zone _ hn _ => ⟨hn, rfl⟩⟩
  | step w now slab slab' ready =>
      obtain ⟨sh', worker', hstep, hinv, -, heffect⟩ := h.step rate w now slab slab' ready
      refine ⟨_, ?_, hinv, heffect.guarded⟩
      rw [LimitReq.step, hstep]
      rfl

/-! ### Runs -/

/-- A step of a worker in a run: its clock, what the allocator gives at its first call, and the zones before and behind it. -/
structure Stage where
  now : ℕ
  slab : Slab
  before : ℕ → Shctx
  behind : ℕ → Shctx

/-- The steps of one worker in a run of them all. -/
def stagesOf (rate : ℕ → ℕ) (w : Fin N) : State N → List (Event N) → List Stage
  | _, [] => []
  | st, e :: es =>
    match step rate st e with
    | none => []
    | some st' =>
      match e with
      | .start _ _ => stagesOf rate w st' es
      | .step v now slab _ _ => if v = w then ⟨now, slab, st.sh, st'.sh⟩ :: stagesOf rate w st' es else stagesOf rate w st' es

/-- No step stores anything in the zone. -/
def NeverCharged (rate : ℕ → ℕ) (zone : ℕ) (stages : List Stage) : Prop :=
  ∀ s ∈ stages, Untouched (rate zone) s.now s.slab (s.before zone) (s.behind zone)

/-- One step charges the request in the zone, and no other one does. -/
def ChargedOnce (rate : ℕ → ℕ) (zone : ℕ) (key : List UInt8) (stages : List Stage) : Prop :=
  ∃ pre s post, stages = pre ++ s :: post ∧ ChargedAt (rate zone) s.now s.slab key (s.before zone) (s.behind zone) ∧
    NeverCharged rate zone (pre ++ post)

theorem NeverCharged.cons {rate : ℕ → ℕ} {zone : ℕ} {s : Stage} {stages : List Stage}
    (hs : Untouched (rate zone) s.now s.slab (s.before zone) (s.behind zone)) (h : NeverCharged rate zone stages) : NeverCharged rate zone (s :: stages) := List.forall_mem_cons.mpr ⟨hs, h⟩

theorem ChargedOnce.cons {rate : ℕ → ℕ} {zone : ℕ} {key : List UInt8} {s : Stage} {stages : List Stage}
    (hs : Untouched (rate zone) s.now s.slab (s.before zone) (s.behind zone)) (h : ChargedOnce rate zone key stages) :
    ChargedOnce rate zone key (s :: stages) := by
  obtain ⟨pre, s', post, rfl, hcharged, hnever⟩ := h
  exact ⟨s :: pre, s', post, rfl, hcharged, hnever.cons hs⟩

/-- What has been charged when a worker has gone on: each zone once, and the others never. -/
structure Charges (rate : ℕ → ℕ) (call : Call) (zones : List ℕ) (stages : List Stage) : Prop where
  never : ∀ zone ∉ zones, NeverCharged rate zone stages
  once : zones.Nodup → ∀ zone ∈ zones, ∃ i key, call.UsesZone i zone ∧ call.key i = some key ∧ ChargedOnce rate zone key stages

theorem Charges.nil (rate : ℕ → ℕ) (call : Call) : Charges rate call [] [] where
  never := fun _ _ _ hs => absurd hs List.not_mem_nil
  once := fun _ _ hzone => absurd hzone List.not_mem_nil

theorem Charges.untouched {rate : ℕ → ℕ} {call : Call} {zones : List ℕ} {stages : List Stage} {s : Stage}
    (hs : ∀ zone, Untouched (rate zone) s.now s.slab (s.before zone) (s.behind zone)) (h : Charges rate call zones stages) :
    Charges rate call zones (s :: stages) where
  never := fun zone hzone => (h.never zone hzone).cons (hs zone)
  once := fun hnodup zone hzone => by
    obtain ⟨i, key, huses, hkey, honce⟩ := h.once hnodup zone hzone
    exact ⟨i, key, huses, hkey, honce.cons (hs zone)⟩

theorem Charges.charged {rate : ℕ → ℕ} {call : Call} {zones : List ℕ} {stages : List Stage} {s : Stage} {zone i : ℕ}
    {key : List UInt8} (huses : call.UsesZone i zone) (hkey : call.key i = some key)
    (hs : ChargedAt (rate zone) s.now s.slab key (s.before zone) (s.behind zone))
    (hother : ∀ zone' ≠ zone, s.behind zone' = s.before zone') (h : Charges rate call zones stages) :
    Charges rate call (zones ++ [zone]) (s :: stages) where
  never := fun zone' hzone' => by
    obtain ⟨hzones, hne⟩ := not_or.mp (mt List.mem_append.mpr hzone')
    refine (h.never zone' hzones).cons ?_
    rw [hother zone' (fun heq => hne (List.mem_singleton.mpr heq))]
    exact Untouched.refl (rate zone') s.now s.slab (s.before zone')
  once := fun hnodup zone' hzone' => by
    obtain ⟨hzones, -, hdisjoint⟩ := List.nodup_append.mp hnodup
    rcases List.mem_append.mp hzone' with hmem | hmem
    · have hne : zone' ≠ zone := hdisjoint zone' hmem zone List.mem_cons_self
      obtain ⟨j, key', huses', hkey', honce⟩ := h.once hzones zone' hmem
      refine ⟨j, key', huses', hkey', honce.cons ?_⟩
      rw [hother zone' hne]
      exact Untouched.refl (rate zone') s.now s.slab (s.before zone')
    · obtain rfl := List.mem_singleton.mp hmem
      have hnot : zone' ∉ zones := fun hin => hdisjoint zone' hin zone' List.mem_cons_self rfl
      exact ⟨i, key, huses, hkey, [], s, stages, rfl, hs, h.never zone' hnot⟩

/-- What a worker does in a run in which no call of its handler comes. -/
theorem State.Inv.stages {st : State N} (h : st.Inv) (rate : ℕ → ℕ) (w : Fin N) {es : List (Event N)}
    (hquiet : ∀ call, .start w call ∉ es) :
    ∃ st' zones, es.foldlM (LimitReq.step rate) st = some st' ∧ st'.Inv ∧ (st'.worker w).call = (st.worker w).call ∧
      (st'.worker w).charged = zones ++ (st.worker w).charged ∧
      Charges rate (st.worker w).call zones (stagesOf rate w st es) := by
  induction es generalizing st with
  | nil => exact ⟨st, [], rfl, h, rfl, rfl, Charges.nil rate _⟩
  | cons e es ih =>
      have hquiet' : ∀ call, .start w call ∉ es := fun call hmem => hquiet call (List.mem_cons_of_mem _ hmem)
      rw [List.foldlM_cons, stagesOf]
      cases e with
      | start v call =>
          have hv : w ≠ v := by
            rintro rfl
            exact hquiet call List.mem_cons_self
          obtain ⟨st', zones, hrun, hinv, hcall, hcharged, hcharges⟩ := ih (h.start v call) hquiet'
          have hsame : Function.update st.worker v ((st.worker v).start call) w = st.worker w := Function.update_of_ne hv ..
          dsimp only at hcall hcharged hcharges
          rw [hsame] at hcall hcharged hcharges
          exact ⟨st', zones, hrun, hinv, hcall, hcharged, hcharges⟩
      | step v now slab slab' ready =>
          obtain ⟨sh', worker', hstep, hinv, hcall, heffect⟩ := h.step rate v now slab slab' ready
          have hnext : LimitReq.step rate st (.step v now slab slab' ready) =
              some ⟨sh', Function.update st.worker v worker'⟩ := by
            rw [LimitReq.step, hstep]
            rfl
          obtain ⟨st', zones, hrun, hinv', hcall', hcharged', hcharges⟩ := ih hinv hquiet'
          rw [hnext]
          dsimp only at hcall' hcharged' hcharges ⊢
          by_cases hv : v = w
          · subst hv
            rw [Function.update_self, hcall] at hcall' hcharges
            rw [Function.update_self] at hcharged'
            rw [if_pos rfl]
            rcases heffect with ⟨hcharged, huntouched⟩ | ⟨zone, key, i, huses, hkey, hcharged, hcharge, hother⟩
            · rw [hcharged] at hcharged'
              exact ⟨st', zones, hrun, hinv', hcall', hcharged', hcharges.untouched huntouched⟩
            · rw [hcharged] at hcharged'
              refine ⟨st', zones ++ [zone], hrun, hinv', hcall', ?_, hcharges.charged huses hkey hcharge hother⟩
              rw [hcharged', List.append_assoc, List.singleton_append]
          · have hsame : Function.update st.worker v worker' w = st.worker w := Function.update_of_ne (Ne.symm hv) ..
            rw [hsame] at hcall' hcharged' hcharges
            rw [if_neg hv]
            exact ⟨st', zones, hrun, hinv', hcall', hcharged', hcharges⟩

theorem State.Inv.run {st : State N} (h : st.Inv) (rate : ℕ → ℕ) (es : List (Event N)) :
    ∃ st', es.foldlM (LimitReq.step rate) st = some st' ∧ st'.Inv := by
  induction es generalizing st with
  | nil => exact ⟨st, rfl, h⟩
  | cons e es ih =>
      obtain ⟨st', hstep, hinv, -⟩ := h.next rate e
      rw [List.foldlM_cons, hstep]
      exact ih hinv

/-- A worker that has not been called. -/
def Worker.idle : Worker where
  node := fun _ => none
  call := ⟨⟨[], 503, false, List.nodup_nil⟩, fun _ => none, .unset⟩
  pc := .returned .declined .unset
  held := []
  charged := []

/-- The zones as they are made, with no worker in the handler. -/
def State.start (N : ℕ) (memory : ℕ → Shctx) : State N where
  sh := fun zone => shctxStart (memory zone)
  worker := fun _ => Worker.idle

theorem State.start_inv (memory : ℕ → Shctx) : (State.start N memory).Inv where
  zones := fun zone => ⟨.leaf, shctxStart_inv (memory zone)⟩
  count := fun _ _ hlr => absurd hlr List.not_mem_nil
  refs := fun _ _ _ hmem => absurd hmem List.not_mem_nil
  worker := fun _ => ⟨fun _ lr => ⟨fun heq => absurd heq.symm (Option.some_ne_none lr), fun hmem => absurd hmem List.not_mem_nil⟩, rfl, fun _ => rfl, fun _ => rfl⟩

/-- The references are counted and kept: what holds in every state. -/
structure State.Right (st : State N) : Prop where
  count : ∀ zone, ∀ lr ∈ (st.sh zone).queue, ((st.sh zone).node lr).count = (st.holders zone lr).card
  nonneg : ∀ zone, ∀ lr ∈ (st.sh zone).queue, 0 ≤ ((st.sh zone).node lr).count
  held : ∀ w zone lr, (zone, lr) ∈ (st.worker w).held → lr ∈ (st.sh zone).queue
  returned : ∀ w returned status, (st.worker w).pc = .returned returned status →
    (st.worker w).held = [] ∧ ∀ zone, (st.worker w).node zone = none

theorem State.Inv.right {st : State N} (h : st.Inv) : st.Right where
  count := h.count
  nonneg := fun zone lr hlr => by
    rw [h.count zone lr hlr]
    exact Int.natCast_nonneg _
  held := fun w zone lr hmem => (h.refs w zone lr hmem).1
  returned := fun w returned status hpc => by
    obtain ⟨hctx, hat⟩ := h.worker w
    rw [Worker.At, hpc] at hat
    refine ⟨hat.1, fun zone => Option.eq_none_iff_forall_ne_some.mpr fun lr hnode => ?_⟩
    have hmem := (hctx zone lr).mp hnode
    rw [hat.1] at hmem
    cases hmem

/-- Whatever the workers do, the count of a node is the number of the requests with a reference to it, a step is always possible
and frees no node with references, a worker that has returned has no node in its contexts, and a request that has been let pass
has been charged once in each zone with a usable key and never in another one, and any other request never. A step that does not
charge leaves every node of the zone as it is, but for the idle ones that it deletes and the one that goes by force. -/
theorem all_or_nothing (rate : ℕ → ℕ) (memory : ℕ → Shctx) (es : List (Event N)) :
    ∃ st, es.foldlM (step rate) (State.start N memory) = some st ∧ st.Right ∧
      (∀ e, ∃ st', step rate st e = some st' ∧ ∀ zone, Guarded (st.sh zone) (st'.sh zone)) ∧
      ∀ w returned status, (st.worker w).pc = .returned returned status → ∀ call es', (∀ call', .start w call' ∉ es') →
        ∃ st', (.start w call :: es').foldlM (step rate) st = some st' ∧
          ∀ returned' status', (st'.worker w).pc = .returned returned' status' →
            let stages := stagesOf rate w st (.start w call :: es')
            (call.status = .unset ∧ status'.Accepted →
              (∀ i zone key, call.UsesZone i zone → call.key i = some key → ChargedOnce rate zone key stages) ∧
              ∀ zone, (¬∃ i, call.UsesZone i zone) → NeverCharged rate zone stages) ∧
            (¬(call.status = .unset ∧ status'.Accepted) → ∀ zone, NeverCharged rate zone stages) := by
  obtain ⟨st, hrun, hinv⟩ := (State.start_inv memory).run rate es
  refine ⟨st, hrun, hinv.right, fun e => ?_, fun w returned status hpc call es' hquiet => ?_⟩
  · obtain ⟨st', hstep, -, hguarded⟩ := hinv.next rate e
    exact ⟨st', hstep, hguarded⟩
  · obtain ⟨st', zones, hrun', hinv', hcall, hcharged, hcharges⟩ := (hinv.start w call).stages rate w hquiet
    have hstart : Function.update st.worker w ((st.worker w).start call) w = (st.worker w).start call :=
      Function.update_self ..
    have hbegun : ((st.worker w).start call).call = call ∧ ((st.worker w).start call).charged = [] := by
      rw [Worker.start, hpc]
      exact ⟨rfl, rfl⟩
    dsimp only at hcall hcharged hcharges
    rw [hstart, hbegun.1] at hcall hcharges
    rw [hstart, hbegun.2, List.append_nil] at hcharged
    refine ⟨st', hrun', fun returned' status' hpc' => ?_⟩
    have hat := (hinv'.worker w).at_
    rw [Worker.At, hpc', hcall, hcharged] at hat
    obtain ⟨-, hunset, hset⟩ := hat
    intro stages
    refine ⟨fun hand => ?_, fun hnot zone => ?_⟩
    · obtain ⟨hstatus, haccepted⟩ := hand
      have hzones := hunset hstatus
      rw [if_pos haccepted] at hzones
      subst hzones
      refine ⟨fun i zone key huses hkey => ?_, fun zone hnone => ?_⟩
      · obtain ⟨j, key', huses', hkey', honce⟩ := hcharges.once call.nodup_zonesFrom zone (Call.mem_zonesFrom.mpr ⟨i, huses⟩)
        obtain rfl := Call.zone_unique huses.1 huses'.1
        obtain rfl := Option.some.inj (hkey.symm.trans hkey')
        exact honce
      · exact hcharges.never zone fun hmem => hnone (Call.mem_zonesFrom.mp hmem)
    · have hzones : zones = [] := by
        by_cases hstatus : call.status = .unset
        · have hcases := hunset hstatus
          rwa [if_neg fun haccepted => hnot ⟨hstatus, haccepted⟩] at hcases
        · exact hset hstatus
      subst hzones
      exact hcharges.never zone List.not_mem_nil

/-- An allocator with memory for one node. -/
def oneSlab : Slab where
  alloc := fun used => if used = [] then some 2 else none
  fresh := fun used node halloc => by
    by_cases hused : used = []
    · subst hused
      obtain rfl := Option.some.inj halloc
      exact ⟨List.not_mem_nil, by decide⟩
    · rw [if_neg hused] at halloc
      cases halloc

/-- A request at the start of the clock under two limits, with the key of the second zone in common. -/
def requestOf (key : UInt8) : List (Event 1) :=
  .start 0 ⟨⟨[⟨0, 1000, 1000⟩, ⟨1, 0, 0⟩], 503, false, by decide⟩, fun i => some [if i = 0 then key else 67], .unset⟩ ::
    List.replicate 4 (.step 0 0 oneSlab oneSlab true)

/-- The second request is rejected in the second zone, and has deleted the node of the first one with its excess. -/
theorem rejected_deletes : ∃ st st' : State 1,
    (requestOf 65).foldlM (step fun _ => 1000) (State.start 1 fun _ => zeroShctx) = some st ∧
      (requestOf 66).foldlM (step fun _ => 1000) st = some st' ∧
      (st'.worker 0).pc = .returned (.status 503) .rejected ∧
      ¬∀ n ∈ (st.sh 0).queue, n ∈ (st'.sh 0).queue ∧ Kept (st.sh 0) (st'.sh 0) n := by
  obtain ⟨st, hrun, hinv⟩ := (State.start_inv fun _ => zeroShctx).run (fun _ => 1000) (requestOf 65)
  obtain ⟨st', hrun', -⟩ := hinv.run (fun _ => 1000) (requestOf 66)
  have hbefore : ((requestOf 65).foldlM (step fun _ => 1000) (State.start 1 fun _ => zeroShctx)).map
      (fun st => ((st.sh 0).queue, (st.sh 0).data 2, ((st.sh 0).node 2).excess)) = some ([2], [65], 1000) := by
    decide +kernel
  have hbehind : ((requestOf 65 ++ requestOf 66).foldlM (step fun _ => 1000) (State.start 1 fun _ => zeroShctx)).map
      (fun st => ((st.worker 0).pc, (st.sh 0).data 2)) = some (.returned (.status 503) .rejected, [66]) := by
    decide +kernel
  rw [List.foldlM_append, hrun, Option.bind_eq_bind, Option.bind_some, hrun', Option.map_some, Option.some.injEq,
    Prod.mk.injEq] at hbehind
  rw [hrun, Option.map_some, Option.some.injEq, Prod.mk.injEq, Prod.mk.injEq] at hbefore
  refine ⟨st, st', hrun, hrun', hbehind.1, fun hkept => ?_⟩
  obtain ⟨-, hdata⟩ := hkept 2 (by rw [hbefore.1]; exact List.mem_singleton_self 2)
  have hsame := hdata.data
  rw [hbehind.2, hbefore.2.1] at hsame
  exact absurd hsame (by decide)

end NginxDtls.LimitReq
