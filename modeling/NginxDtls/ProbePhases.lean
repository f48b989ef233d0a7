import NginxDtls.ProbeSession
import NginxDtls.ProbeBounds

/-! What the phases make of a datagram: those before the probe phase let the client in or not, and the probe phase
absorbs the datagram or passes it on to the proxy. -/

namespace NginxDtls.ProbeSession

open Memory

variable {hmacSha1 : List UInt8 → List UInt8 → List UInt8}

/-! ### The probe code -/

section Probed

variable (hmacSha1 : List UInt8 → List UInt8 → List UInt8)

/-- What the probe code returns for the datagram, and what it has sent. -/
def probed (env : Env) (d : List UInt8) : Option ProbeResult :=
  (processProbe hmacSha1 env.alloc d.length (probeStore d env.after env.blocks)).1

/-- The datagram as the probe code leaves it. -/
def probeLeft (env : Env) (d : List UInt8) : List UInt8 :=
  bytesAt ((processProbe hmacSha1 env.alloc d.length (probeStore d env.after env.blocks)).2.bytes .packet) 0 d.length

def probeAnswers (env : Env) (d : List UInt8) : List Act :=
  ((probed hmacSha1 env d).elim [] ProbeResult.replies).map Act.reply

/-- The probe code absorbs the datagram. -/
def Absorbed (env : Env) (d : List UInt8) : Prop := ∃ r, probed hmacSha1 env d = some r ∧ r.ret = .ok

/-- The datagram goes on to the next phase. -/
def PassedOn (env : Env) (d : List UInt8) : Prop := ∃ r, probed hmacSha1 env d = some r ∧ r.ret ≠ .ok

end Probed

variable (hmacSha1) in
theorem probed_cases (env : Env) (d : List UInt8) :
    Absorbed hmacSha1 env d ∨ PassedOn hmacSha1 env d ∨ probed hmacSha1 env d = none := by
  cases hprobed : probed hmacSha1 env d with
  | none => exact Or.inr (Or.inr rfl)
  | some r =>
      by_cases hret : r.ret = .ok
      · exact Or.inl ⟨r, hprobed, hret⟩
      · exact Or.inr (Or.inl ⟨r, hprobed, hret⟩)

theorem PassedOn.not_absorbed {env : Env} {d : List UInt8} (h : PassedOn hmacSha1 env d) :
    ¬Absorbed hmacSha1 env d := by
  rintro ⟨r', hprobed', hret'⟩
  obtain ⟨r, hprobed, hret⟩ := h
  rw [hprobed] at hprobed'
  cases hprobed'
  exact hret hret'

/-- The connection holds the datagram: it was accepted with it, or it has just received it. -/
def Holds (c : ProbeConnection) (d : List UInt8) : Prop :=
  c = ⟨true, some d, some none⟩ ∨ c = ⟨true, none, some (some d)⟩

theorem processProbe_result {c : ProbeConnection} {d : List UInt8} (hc : Holds c d) (env : Env) :
    (ngxProcessProbe hmacSha1 env.alloc c env.after env.blocks).1 = probed hmacSha1 env d := by
  have hrun : (probeRun hmacSha1 env.alloc c env.after env.blocks).1 = probed hmacSha1 env d := by
    obtain rfl | rfl := hc <;> rfl
  rw [← hrun, ngxProcessProbe]
  dsimp only
  split
  · rfl
  · obtain rfl | rfl := hc <;> rfl

/-- An absorbed datagram is gone. -/
theorem processProbe_absorbed {c : ProbeConnection} {d : List UInt8} (hc : Holds c d) {env : Env}
    (h : Absorbed hmacSha1 env d) :
    (ngxProcessProbe hmacSha1 env.alloc c env.after env.blocks).2 = ⟨true, none, some none⟩ := by
  obtain ⟨r, hprobed, hret⟩ := h
  have hrun : (probeRun hmacSha1 env.alloc c env.after env.blocks).1 = some r := by
    rw [← hprobed]
    obtain rfl | rfl := hc <;> rfl
  obtain ⟨ret, replies⟩ := r
  dsimp only at hret
  subst hret
  rw [ngxProcessProbe]
  dsimp only
  rw [hrun]
  obtain rfl | rfl := hc <;> rfl

/-- A datagram that is passed on stays where it is. -/
theorem processProbe_passedOn {c : ProbeConnection} {d : List UInt8} (hc : Holds c d) {env : Env}
    (h : PassedOn hmacSha1 env d) :
    Holds (ngxProcessProbe hmacSha1 env.alloc c env.after env.blocks).2 (probeLeft hmacSha1 env d) ∧
      (ngxProcessProbe hmacSha1 env.alloc c env.after env.blocks).2.buffer.isSome = c.buffer.isSome := by
  obtain ⟨r, hprobed, hret⟩ := h
  have hrun : (probeRun hmacSha1 env.alloc c env.after env.blocks).1 = some r := by
    rw [← hprobed]
    obtain rfl | rfl := hc <;> rfl
  have hleft : bytesAt ((probeRun hmacSha1 env.alloc c env.after env.blocks).2.bytes .packet) 0 d.length =
      probeLeft hmacSha1 env d := by
    obtain rfl | rfl := hc <;> rfl
  rw [ngxProcessProbe]
  dsimp only
  rw [hrun]
  split
  · rename_i heq
    exact absurd (congrArg ProbeResult.ret (Option.some.inj heq)) hret
  · obtain rfl | rfl := hc
    · exact ⟨Or.inl (by rw [← hleft]; rfl), rfl⟩
    · exact ⟨Or.inr (by rw [← hleft]; rfl), rfl⟩

/-! ### UDP probes -/

/-- The 24 bytes of a UDP probe. -/
def IsUdpProbe (d : List UInt8) : Prop := d.length = 24 ∧ (d.take 6 = prefixProbe1 ∨ d.take 6 = prefixProbe2)

/-- The probe one node further: the TTL byte counts down to 0, and the byte behind it counts the node. -/
def hop (d : List UInt8) : List UInt8 :=
  (d.set 6 (if d.getD 6 0 ≤ 1 then 0 else d.getD 6 0 - 1)).set 7 (d.getD 7 0 + 1)

theorem bytesAt_probeStore (d : List UInt8) (after : ℕ → UInt8) (blocks : ProbeObject → ℕ → UInt8) {n : ℕ}
    (hn : n ≤ d.length) : bytesAt ((probeStore d after blocks).bytes .packet) 0 n = d.take n := by
  refine List.ext_getElem? fun k => ?_
  by_cases hk : k < n
  · rw [bytesAt_getElem? _ _ hk, Nat.zero_add, probeStore_packet (by omega), List.getElem?_take, if_pos hk,
      List.getD_eq_getElem?_getD, List.getElem?_eq_getElem (by omega), Option.getD_some]
  · rw [List.getElem?_eq_none (by rw [bytesAt_length]; omega), List.getElem?_eq_none (by rw [List.length_take]; omega)]

/-- The two bytes that a hop changes. -/
theorem bytesAt_hop {d : List UInt8} (hd : d.length = 24) {f : ℕ → UInt8} (hf : ∀ k < 24, f k = d.getD k 0)
    {ttl : UInt8} (httl : ttl = if d.getD 6 0 ≤ 1 then 0 else d.getD 6 0 - 1) :
    bytesAt (overlay (overlay f 6 [some ttl]) 7 [some (d.getD 7 0 + 1)]) 0 24 = hop d := by
  refine List.ext_getElem? fun k => ?_
  by_cases hk : k < 24
  · rw [bytesAt_getElem? _ _ hk, Nat.zero_add, hop, ← httl, List.getElem?_set, List.length_set]
    rcases eq_or_ne k 7 with rfl | h7
    · rw [if_pos rfl, if_pos (by omega), @overlay_some _ 7 0 _ (d.getD 7 0 + 1) rfl]
    rw [if_neg (Ne.symm h7), List.getElem?_set]
    have hover : overlay (overlay f 6 [some ttl]) 7 [some (d.getD 7 0 + 1)] k = overlay f 6 [some ttl] k := by
      rcases Nat.lt_or_gt_of_ne h7 with hlt | hgt
      · exact overlay_of_lt hlt
      · exact overlay_of_ge hgt
    rw [hover]
    rcases eq_or_ne k 6 with rfl | h6
    · rw [if_pos rfl, if_pos (by omega), @overlay_some _ 6 0 _ ttl rfl]
    · rw [if_neg (Ne.symm h6)]
      have hover : overlay f 6 [some ttl] k = f k := by
        rcases Nat.lt_or_gt_of_ne h6 with hlt | hgt
        · exact overlay_of_lt hlt
        · exact overlay_of_ge hgt
      rw [hover, hf k hk, List.getD_eq_getElem?_getD, List.getElem?_eq_getElem (by omega), Option.getD_some]
  · rw [List.getElem?_eq_none (by rw [bytesAt_length]; omega),
      List.getElem?_eq_none (by rw [hop, List.length_set, List.length_set]; omega)]

variable (hmacSha1) in
theorem processProbe_udp (env : Env) {d : List UInt8} (h : IsUdpProbe d) (halloc : env.alloc .username = true) :
    probed hmacSha1 env d = some ⟨if d.getD 6 0 ≤ 1 then .ok else .done, [hop d]⟩ ∧ probeLeft hmacSha1 env d = hop d := by
  obtain ⟨hlen, hpre⟩ := h
  have hbytes : ∀ k < 24, (probeStore d env.after env.blocks).bytes .packet k = d.getD k 0 := fun k hk =>
    probeStore_packet (by omega)
  have hcheck := hasProbePrefix_run .packet 0 (probeStore d env.after env.blocks)
  rw [bytesAt_probeStore d env.after env.blocks (n := 6) (by omega)] at hcheck
  obtain ⟨hfound, hkeep⟩ := hcheck
  rw [decide_eq_true hpre] at hfound
  rw [probed, probeLeft, processProbe, if_pos hlen, ngxProcessUdpProbe, hlen]
  have h6 := hbytes 6 (by omega)
  have h7 := hbytes 7 (by omega)
  generalize hs : (hasProbePrefix .packet 0 (probeStore d env.after env.blocks)) = found at hfound hkeep
  have hstore : found.2.bytes .packet = (probeStore d env.after env.blocks).bytes .packet := by rw [hkeep]
  have hnode : ∀ ttl, overlay ((probeStore d env.after env.blocks).bytes .packet) 6 [some ttl] 7 = d.getD 7 0 :=
    fun ttl => by rw [overlay_of_ge (k := 7) (by simp), h7]
  by_cases httl : d.getD 6 0 ≤ 1
  · have hhop := @bytesAt_hop d hlen _ hbytes 0 (by rw [if_pos httl])
    simp [-List.getD_eq_getElem?_getD, hs, hfound, halloc, probeTtl, probePrefixLen, hstore, h6, hnode, httl, writeByte,
      probeUsername, ngxMemcpy, ngxReplyProbe, hhop]
  · have hhop := @bytesAt_hop d hlen _ hbytes (d.getD 6 0 - 1) (by rw [if_neg httl])
    simp [-List.getD_eq_getElem?_getD, hs, hfound, halloc, probeTtl, probePrefixLen, hstore, h6, hnode, httl, writeByte,
      probeUsername, ngxMemcpy, ngxReplyProbe, hhop]

/-! ### The phases before -/

/-- A phase lets the client in. -/
def passes : List Verdict → Bool
  | [] => true
  | .ok :: _ => true
  | .declined :: rest => passes rest
  | .rejected :: _ => false

/-- All phases before the probe phase let the client in. -/
def Conf.admits (conf : Conf) : Bool := conf.before.all fun verdicts => passes verdicts.reverse

/-- The number of the probe handler. -/
def Conf.probePhase (conf : Conf) : ℕ := (conf.before.map List.length).sum

theorem drop_phase {engine : List PhaseHandler} {n : ℕ} {handlers : List StreamHandler}
    {phases : List (List StreamHandler)} (h : engine.drop n = ngxStreamInitPhaseHandlers n (handlers :: phases)) :
    engine.drop (n + handlers.length) = ngxStreamInitPhaseHandlers (n + handlers.length) phases := by
  rw [← List.drop_drop, h, ngxStreamInitPhaseHandlers]
  exact List.drop_left' (by rw [List.length_map, List.length_reverse])

theorem getElem_of_drop {engine rest : List PhaseHandler} {n : ℕ} {ph : PhaseHandler} (h : engine.drop n = ph :: rest) :
    engine[n]? = some ph := by
  have := congrArg (·[0]?) h
  simpa using this

/-- The session at another handler. -/
def Session.toPhase (s : Session) (n : ℕ) : Session := { s with phaseHandler := n }

theorem Session.toPhase_of_eq {s : Session} {n : ℕ} (h : s.phaseHandler = n) : s.toPhase n = s := by
  subst h
  rfl

section Run

variable {conf : Conf} {env : Env}

variable (hmacSha1) (env) in
theorem runPhases_verdicts {verdicts : List Verdict} {m : ℕ} {rest : List PhaseHandler} {s : Session} {fuel k : ℕ}
    (h : conf.phaseEngine.drop s.phaseHandler =
      verdicts.map (fun v => ⟨some (.verdict v), m⟩) ++ rest)
    (hm : m = s.phaseHandler + verdicts.length) (hfuel : verdicts.length + k ≤ fuel) :
    (passes verdicts = true ∧ ∃ fuel', k ≤ fuel' ∧ ngxStreamCoreRunPhases hmacSha1 conf env fuel s =
      ngxStreamCoreRunPhases hmacSha1 conf env fuel' { s with phaseHandler := m }) ∨
    (passes verdicts = false ∧ ∃ j, ngxStreamCoreRunPhases hmacSha1 conf env fuel s =
      (s.toPhase j).finalize) := by
  induction verdicts generalizing s fuel with
  | nil =>
      rw [List.length_nil, Nat.add_zero] at hm
      subst hm
      exact Or.inl ⟨rfl, fuel, by simpa using hfuel, rfl⟩
  | cons v verdicts ih =>
      rw [List.length_cons] at hm hfuel
      obtain ⟨fuel, rfl⟩ : ∃ f, fuel = f + 1 := ⟨fuel - 1, by omega⟩
      have hget := getElem_of_drop h
      cases v with
      | ok =>
          refine Or.inl ⟨rfl, fuel, by omega, ?_⟩
          rw [ngxStreamCoreRunPhases, hget]
          rfl
      | declined =>
          have hnext : conf.phaseEngine.drop (s.phaseHandler + 1) =
              verdicts.map (fun v => ⟨some (.verdict v), m⟩) ++ rest := by
            rw [← List.drop_drop, h]
            rfl
          have hstep : ngxStreamCoreRunPhases hmacSha1 conf env (fuel + 1) s =
              ngxStreamCoreRunPhases hmacSha1 conf env fuel { s with phaseHandler := s.phaseHandler + 1 } := by
            rw [ngxStreamCoreRunPhases, hget]
            rfl
          rw [hstep]
          exact ih (s := { s with phaseHandler := s.phaseHandler + 1 }) hnext (by dsimp only; omega) (by omega)
      | rejected =>
          refine Or.inr ⟨rfl, s.phaseHandler, ?_⟩
          rw [ngxStreamCoreRunPhases, hget]
          rfl

variable (hmacSha1) (env) in
theorem runPhases_before {before : List (List Verdict)} {phases : List (List StreamHandler)} {s : Session} {fuel k : ℕ}
    (h : conf.phaseEngine.drop s.phaseHandler =
      ngxStreamInitPhaseHandlers s.phaseHandler (before.map (·.map .verdict) ++ phases))
    (hfuel : (before.map List.length).sum + k ≤ fuel) :
    ((before.all fun verdicts => passes verdicts.reverse) = true ∧ ∃ fuel', k ≤ fuel' ∧
      ngxStreamCoreRunPhases hmacSha1 conf env fuel s = ngxStreamCoreRunPhases hmacSha1 conf env fuel'
        { s with phaseHandler := s.phaseHandler + (before.map List.length).sum }) ∨
    ((before.all fun verdicts => passes verdicts.reverse) = false ∧ ∃ j,
      ngxStreamCoreRunPhases hmacSha1 conf env fuel s = (s.toPhase j).finalize) := by
  induction before generalizing s fuel with
  | nil => exact Or.inl ⟨rfl, fuel, by simpa using hfuel, rfl⟩
  | cons verdicts before ih =>
      rw [List.map_cons, List.sum_cons] at hfuel
      rw [List.map_cons, List.cons_append] at h
      have hphase : conf.phaseEngine.drop s.phaseHandler =
          verdicts.reverse.map (fun v => ⟨some (.verdict v), s.phaseHandler + verdicts.length⟩) ++
            ngxStreamInitPhaseHandlers (s.phaseHandler + verdicts.length) (before.map (·.map .verdict) ++ phases) := by
        rw [h, ngxStreamInitPhaseHandlers, List.length_map, ← List.map_reverse, List.map_map]
        rfl
      have hrest := drop_phase h
      rw [List.length_map] at hrest
      rw [List.all_cons]
      have hlength : verdicts.reverse.length + ((before.map List.length).sum + k) ≤ fuel := by
        rw [List.length_reverse]
        omega
      rcases runPhases_verdicts hmacSha1 env hphase (by rw [List.length_reverse]) hlength with ⟨hpass, fuel', hk, hrun⟩ | ⟨hpass, j, hrun⟩
      · rw [hrun, hpass, Bool.true_and]
        have := ih (s := { s with phaseHandler := s.phaseHandler + verdicts.length }) hrest hk
        dsimp only at this
        rwa [Nat.add_assoc, ← List.sum_cons, ← List.map_cons] at this
      · rw [hrun, hpass, Bool.false_and]
        exact Or.inr ⟨rfl, j, rfl⟩

theorem drop_before {engine : List PhaseHandler} {n : ℕ} {before : List (List Verdict)}
    {phases : List (List StreamHandler)}
    (h : engine.drop n = ngxStreamInitPhaseHandlers n (before.map (·.map .verdict) ++ phases)) :
    engine.drop (n + (before.map List.length).sum) =
      ngxStreamInitPhaseHandlers (n + (before.map List.length).sum) phases := by
  induction before generalizing n with
  | nil => exact h
  | cons verdicts before ih =>
      have hrest := drop_phase h
      rw [List.length_map] at hrest
      rw [List.map_cons, List.sum_cons, ← Nat.add_assoc]
      exact ih hrest

/-- Behind the phases before it the engine has the probe phase, the SSL phase and the content phase. -/
theorem drop_probePhase (conf : Conf) : conf.phaseEngine.drop conf.probePhase =
    [⟨some .probe, conf.probePhase + 1⟩, ⟨some .ssl, conf.probePhase + 1 + 1⟩, ⟨none, 0⟩] := by
  have h := @drop_before conf.phaseEngine 0 conf.before _ rfl
  rwa [Nat.zero_add] at h

theorem probePhase_lt (conf : Conf) : conf.probePhase + 3 = conf.phaseEngine.length := by
  have h := congrArg List.length (drop_probePhase conf)
  rw [List.length_drop] at h
  simp only [List.length_cons, List.length_nil] at h
  omega

/-- From the probe phase on the session is handed to the proxy, unless the probe handler keeps it. -/
theorem runPhases_probe {s : Session} (hphase : s.phaseHandler = conf.probePhase) {fuel : ℕ} (hfuel : 3 ≤ fuel) :
    ngxStreamCoreRunPhases hmacSha1 conf env fuel s =
      if (ngxStreamProbeHandler hmacSha1 conf env s).1 = .ok then
        ngxStreamProxyHandler conf env
          ((ngxStreamProbeHandler hmacSha1 conf env s).2.toPhase (conf.probePhase + 1 + 1))
      else (ngxStreamProbeHandler hmacSha1 conf env s).2 := by
  obtain ⟨fuel, rfl⟩ : ∃ f, fuel = f + 1 + 1 + 1 := ⟨fuel - 3, by omega⟩
  have hdrop := drop_probePhase conf
  have hprobe := getElem_of_drop hdrop
  have hdrop₁ : conf.phaseEngine.drop (conf.probePhase + 1) =
      [⟨some .ssl, conf.probePhase + 1 + 1⟩, ⟨none, 0⟩] := by
    rw [← List.drop_drop, hdrop]
    rfl
  have hssl := getElem_of_drop hdrop₁
  have hcontent : conf.phaseEngine[conf.probePhase + 1 + 1]? = some ⟨none, 0⟩ := by
    refine @getElem_of_drop _ [] _ _ ?_
    rw [← List.drop_drop, hdrop₁]
    rfl
  have hreturned : (ngxStreamProbeHandler hmacSha1 conf env s).1 = .ok ∨
      (ngxStreamProbeHandler hmacSha1 conf env s).1 = .done := by
    rw [ngxStreamProbeHandler]
    split
    · exact Or.inr rfl
    · split
      · dsimp only
        split
        · exact Or.inr rfl
        · split
          · exact Or.inr rfl
          · exact Or.inl rfl
      · exact Or.inl rfl
  rw [ngxStreamCoreRunPhases, hphase, hprobe]
  dsimp only
  rw [StreamHandler.run]
  rcases hreturned with hok | hdone
  · rw [hok, if_pos rfl]
    dsimp only
    rw [ngxStreamCoreRunPhases]
    dsimp only
    rw [hssl]
    dsimp only
    rw [StreamHandler.run]
    dsimp only
    rw [ngxStreamCoreRunPhases]
    dsimp only
    rw [hcontent]
    rfl
  · rw [hdone, if_neg (by decide)]

end Run

/-! ### A datagram in the probe phase -/

section Receive

variable {conf : Conf} {env : Env} {s : Session} {d : List UInt8}

theorem probeHandler_absorbed (hprobe : conf.probeEnable = true) (htimer : s.timedout = false) (hs : Holds s.conn d)
    (h : Absorbed hmacSha1 env d) : ngxStreamProbeHandler hmacSha1 conf env s =
      (.done, { s with
        conn := ⟨true, none, some none⟩
        log := s.log ++ probeAnswers hmacSha1 env d
        timerSet := true }) := by
  obtain ⟨r, hprobed, hret⟩ := h
  rw [ngxStreamProbeHandler, htimer, if_neg Bool.false_ne_true, if_pos hprobe]
  simp only [processProbe_result hs, processProbe_absorbed hs ⟨r, hprobed, hret⟩, probeAnswers, hprobed, hret, if_true]

theorem probeHandler_passedOn (hprobe : conf.probeEnable = true) (htimer : s.timedout = false) (hs : Holds s.conn d)
    (h : PassedOn hmacSha1 env d) : ∃ conn, Holds conn (probeLeft hmacSha1 env d) ∧
      conn.buffer.isSome = s.conn.buffer.isSome ∧ ngxStreamProbeHandler hmacSha1 conf env s =
        (.ok, { s with conn, log := s.log ++ probeAnswers hmacSha1 env d }) := by
  obtain ⟨hholds, hbuffer⟩ := processProbe_passedOn hs h
  refine ⟨_, hholds, hbuffer, ?_⟩
  obtain ⟨r, hprobed, hret⟩ := h
  rw [ngxStreamProbeHandler, htimer, if_neg Bool.false_ne_true, if_pos hprobe]
  simp only [processProbe_result hs, probeAnswers, hprobed, hret, if_false]

theorem probeHandler_gone (hprobe : conf.probeEnable = true) (htimer : s.timedout = false) (hs : Holds s.conn d)
    (h : probed hmacSha1 env d = none) : ∃ s' : Session,
      ngxStreamProbeHandler hmacSha1 conf env s = (.done, s'.finalize) ∧ s'.log = s.log := by
  refine ⟨{ s with conn := (ngxProcessProbe hmacSha1 env.alloc s.conn env.after env.blocks).2 }, ?_, rfl⟩
  rw [ngxStreamProbeHandler, htimer, if_neg Bool.false_ne_true, if_pos hprobe]
  simp only [processProbe_result hs, h, Option.elim_none, List.map_nil, List.append_nil]

theorem phases_at (h : s.phaseHandler = 0) : conf.phaseEngine.drop s.phaseHandler =
    ngxStreamInitPhaseHandlers s.phaseHandler (conf.before.map (·.map .verdict) ++ [[.probe], [.ssl]]) := by
  rw [h]
  rfl

theorem phases_fuel (conf : Conf) : (conf.before.map List.length).sum + 3 ≤ conf.phaseEngine.length := by
  rw [← probePhase_lt conf]
  rfl

/-- The next event of `c->read` brings the session to its probe handler. -/
structure AtProbe (conf : Conf) (s : Session) : Prop where
  upstream : s.upstream = none
  timedout : s.timedout = false
  phase : s.phaseHandler = conf.probePhase ∨ s.phaseHandler = 0 ∧ conf.admits = true

theorem readHandler_probe (hs : AtProbe conf s) : readHandler hmacSha1 conf env s =
    if (ngxStreamProbeHandler hmacSha1 conf env (s.toPhase conf.probePhase)).1 = .ok then
      ngxStreamProxyHandler conf env
        ((ngxStreamProbeHandler hmacSha1 conf env (s.toPhase conf.probePhase)).2.toPhase (conf.probePhase + 1 + 1))
    else (ngxStreamProbeHandler hmacSha1 conf env (s.toPhase conf.probePhase)).2 := by
  have hlength := probePhase_lt conf
  rw [readHandler, hs.upstream]
  dsimp only
  rcases hs.phase with hphase | ⟨hphase, hadmits⟩
  · rw [runPhases_probe hphase (by omega), Session.toPhase_of_eq hphase]
  · have hrun := runPhases_before hmacSha1 env (phases_at hphase) (phases_fuel conf)
    rw [← Conf.admits, hadmits] at hrun
    rcases hrun with ⟨-, fuel, hfuel, hrun⟩ | ⟨hno, -⟩
    · rw [hrun, hphase, Nat.zero_add]
      exact @runPhases_probe _ conf env (s.toPhase conf.probePhase) rfl _ hfuel
    · exact absurd hno (by decide)

theorem readHandler_absorbed (hprobe : conf.probeEnable = true) (hs : AtProbe conf s) (hd : Holds s.conn d)
    (h : Absorbed hmacSha1 env d) : readHandler hmacSha1 conf env s =
      { s with
        conn := ⟨true, none, some none⟩
        log := s.log ++ probeAnswers hmacSha1 env d
        timerSet := true
        phaseHandler := conf.probePhase } := by
  rw [readHandler_probe hs, probeHandler_absorbed (s := s.toPhase conf.probePhase) hprobe hs.timedout hd h]
  rfl

theorem readHandler_passedOn (hprobe : conf.probeEnable = true) (hs : AtProbe conf s) (hd : Holds s.conn d)
    (h : PassedOn hmacSha1 env d) : ∃ conn, Holds conn (probeLeft hmacSha1 env d) ∧
      conn.buffer.isSome = s.conn.buffer.isSome ∧ readHandler hmacSha1 conf env s =
        ngxStreamProxyHandler conf env { s with
          conn
          log := s.log ++ probeAnswers hmacSha1 env d
          phaseHandler := conf.probePhase + 1 + 1 } := by
  obtain ⟨conn, hholds, hbuffer, hrun⟩ := probeHandler_passedOn
    (s := s.toPhase conf.probePhase) hprobe hs.timedout hd h
  refine ⟨conn, hholds, hbuffer, ?_⟩
  rw [readHandler_probe hs, hrun]
  rfl

theorem readHandler_gone (hprobe : conf.probeEnable = true) (hs : AtProbe conf s) (hd : Holds s.conn d)
    (h : probed hmacSha1 env d = none) : ∃ s' : Session, readHandler hmacSha1 conf env s = s'.finalize ∧
      s'.log = s.log := by
  obtain ⟨s', hrun, hlog⟩ := probeHandler_gone
    (s := s.toPhase conf.probePhase) hprobe hs.timedout hd h
  refine ⟨s', ?_, hlog⟩
  rw [readHandler_probe hs, hrun]
  rfl

variable (hmacSha1) (env) in
/-- A client that a phase before rejects. -/
theorem readHandler_rejected (hup : s.upstream = none) (hphase : s.phaseHandler = 0) (h : conf.admits = false) :
    ∃ j, readHandler hmacSha1 conf env s = (s.toPhase j).finalize := by
  have hlength := probePhase_lt conf
  rw [readHandler, hup]
  dsimp only
  have hrun := runPhases_before hmacSha1 env (phases_at hphase) (phases_fuel conf)
  rw [← Conf.admits, h] at hrun
  rcases hrun with ⟨hyes, -⟩ | ⟨-, hrun⟩
  · exact absurd hyes (by decide)
  · exact hrun

end Receive

end NginxDtls.ProbeSession
