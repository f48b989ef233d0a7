import NginxDtls.ProxyAccounting

/-! The retries of one session. The bitmap of tried peers says at every selection which peers of the session's list it
has selected, whichever method it uses and however many words the bitmap has. So a session never selects a peer twice or
one that is down, turns to the backups only when no primary peer could be selected, never turns back, and makes at most
as many selections as there are peers that are not down. -/

namespace NginxDtls

open Finset Run

/-! ### Peers do not go down -/

theorem RrPeers.down_modify (l : RrPeers) (p : ℕ) {f : RrPeer → RrPeer} (hf : ∀ peer, (f peer).down = peer.down) (i : ℕ) :
    ((l.modify p f).peer i).down = (l.peer i).down := by
  by_cases h : i = p
  · subst h
    simp [RrPeers.modify, hf]
  · simp [RrPeers.modify, h]

theorem Upstream.down_modify {u : Upstream} {side : Tier} {f : RrPeers → RrPeers}
    (hf : ∀ i, ((f (u.list side)).peer i).down = ((u.list side).peer i).down) (side' : Tier) (i : ℕ) :
    (((u.modify side f).list side').peer i).down = ((u.list side').peer i).down := by
  by_cases h : side' = side
  · subst h
    simp [Upstream.modify, hf]
  · simp [Upstream.modify, h]

theorem Takes.down {now : ℤ} {u u' : Upstream} {rrp rrp' : RrPeerData} {p : ℕ} (h : Takes now u rrp p u' rrp')
    (side : Tier) (i : ℕ) : ((u'.list side).peer i).down = ((u.list side).peer i).down := by
  obtain ⟨f, heq, hf⟩ := h.cases_list
  rw [heq]
  apply Upstream.down_modify
  intro j
  obtain hf | ⟨E, -, hf⟩ := hf
  · rw [hf]
    exact RrPeers.down_modify (f := RrPeer.connect) _ p (fun _ => rfl) j
  · rw [hf, served_down]

theorem RrPeer.live_down (peer : RrPeer) : peer.live.down = peer.down := by
  obtain h | h := peer.live_eq <;> simp [h]

theorem RrPeer.freed_down (single failed : Bool) (now : ℤ) (peer : RrPeer) :
    (peer.freed single failed now).down = peer.down := by
  cases single <;> cases failed <;> simp [freed, disconnect, fail, live_down]

/-- No move of a session takes a peer down or brings it back. -/
theorem Moves.down {conf : ProxyConf} {u u' : Upstream} {s s' : ProxySession} (hwf : u.Wf) (h : SessionOk conf s)
    (hm : Moves conf u s u' s') (side : Tier) (i : ℕ) : ((u'.list side).peer i).down = ((u.list side).peer i).down := by
  cases hm with
  | init key hfrom hto hu hdata htries hsockaddr hcalls => rw [hu]
  | quiet hto hu hdata htries hsockaddr hcalls =>
    obtain hu | hu := hu
    · rw [hu]
    · rw [hu, ngxStreamUpstreamNotifyRoundRobinPeer]
      cases s.data.rrp.current with
      | none => rfl
      | some held => exact Upstream.down_modify (RrPeers.down_modify _ held.2 RrPeer.live_down) side i
  | got m hfrom hto hok hu hdata htries hsockaddr hcalls =>
    obtain ⟨-, hsame⟩ | ⟨-, rrp₁, p, htakes⟩ :=
      (peerGet_chooses hwf conf.method conf.points m h.settled).selects.cases_takes
    · rw [hu, hsame]
    · rw [hu]
      exact htakes.down side i
  | busy m hfrom hto hbusy hu hdata htries hsockaddr hcalls =>
    obtain ⟨-, hsame⟩ | ⟨hrc, -⟩ :=
      (peerGet_chooses hwf conf.method conf.points m h.settled).selects.cases_takes
    · rw [hu, hsame]
    · exact absurd hrc hbusy
  | freed failed now hfrom hto hheld hu hdata htries hsockaddr hcalls =>
    rw [hu, ngxStreamUpstreamFreeRoundRobinPeer_fst]
    cases s.data.rrp.current with
    | none => rfl
    | some held => exact Upstream.down_modify (RrPeers.down_modify _ held.2 (RrPeer.freed_down _ failed now)) side i
  | nothing hfrom hto hheld hu hdata htries hsockaddr hcalls => rw [hu]

/-! ### The calls of a session -/

theorem selections_append (calls : List PeerCall) (call : PeerCall) :
    selections (calls ++ [call]) = selections calls ++ selections [call] := by
  simp [selections]

/-- Before or with every selection of a backup peer there is a selection in which no primary peer was eligible. -/
def BackupsLast (calls : List PeerCall) : Prop :=
  ∀ pre p exhausted post, calls = pre ++ .get (some (.backup, p)) exhausted :: post →
    ∃ peer, .get peer true ∈ pre ++ [.get (some (.backup, p)) exhausted]

theorem backupsLast_append {calls : List PeerCall} {call : PeerCall} (h : BackupsLast calls)
    (hcall : ∀ p exhausted, call = .get (some (.backup, p)) exhausted → ∃ peer, .get peer true ∈ calls ++ [call]) :
    BackupsLast (calls ++ [call]) := by
  intro pre p exhausted post heq
  obtain ⟨post', hlast⟩ | hlast : (∃ post', post = post' ++ [call]) ∨ post = [] := by
    cases List.eq_nil_or_concat post with
    | inl hnil => exact .inr hnil
    | inr hconcat =>
      obtain ⟨post', last, hpost⟩ := hconcat
      refine .inl ⟨post', ?_⟩
      rw [hpost, List.concat_eq_append, ← List.cons_append, ← List.append_assoc] at heq
      rw [hpost, List.concat_eq_append, (List.append_inj' heq rfl).2]
  · rw [hlast, ← List.cons_append, ← List.append_assoc] at heq
    exact h pre p exhausted post' (List.append_inj' heq rfl).1
  · rw [hlast] at heq
    obtain ⟨hpre, hsame⟩ := List.append_inj' heq rfl
    simp only [List.cons.injEq, and_true] at hsame
    rw [← hpre, ← hsame]
    exact hcall p exhausted hsame

/-! ### The data of a session -/

/-- The bitmap has room for both lists, and says what was selected of the session's list. -/
structure TriedOk (u : Upstream) (rrp : RrPeerData) (calls : List PeerCall) : Prop where
  size : ∀ side, (u.list side).number ≤ 64 * rrp.tried.length
  tried : (u.list rrp.peers).single = false → ∀ i, i < (u.list rrp.peers).number →
    (triedBit rrp.tried i = true ↔ (rrp.peers, i) ∈ selections calls)
  primary : rrp.peers = .primary → ∀ q ∈ selections calls, q.1 = .primary

/-- A session that has the backup list before it: only a list without a next one is a single one. -/
theorem noneEligible_of_exhausted {now : ℤ} {u : Upstream} {rrp : RrPeerData} {calls : List PeerCall} (hwf : u.Wf)
    (h : TriedOk u rrp calls) (hside : rrp.peers = .primary) (hnext : u.next = true) (hnone : Exhausted now u rrp) :
    noneEligible now u calls = true := by
  have hsingle : (u.list rrp.peers).single = false := by
    by_contra hsingle
    have := (hwf.single rrp.peers (by simpa using hsingle)).2
    rw [hnext] at this
    cases this
  rw [noneEligible, List.all_eq_true]
  intro i hi
  rw [List.mem_range] at hi
  have htried := h.tried hsingle i (by rw [hside]; exact hi)
  rw [hside] at htried
  have hskip := hnone i hi
  rw [skipped, Bool.or_eq_true] at hskip
  rw [Bool.or_eq_true, List.contains_iff_mem]
  exact hskip.imp_left htried.mp

theorem selections_get (calls : List PeerCall) (q : Tier × ℕ) (exhausted : Bool) :
    selections (calls ++ [.get (some q) exhausted]) = selections calls ++ [q] := by
  simp [selections]

/-- The peer that is taken was not selected before, and its bit is set. -/
theorem TriedOk.takes {now : ℤ} {u u' : Upstream} {rrp rrp' : RrPeerData} {p : ℕ} {calls : List PeerCall}
    (h : TriedOk u rrp calls) (ht : Takes now u rrp p u' rrp') (exhausted : Bool) :
    TriedOk u rrp' (calls ++ [.get (some (rrp.peers, p)) exhausted]) := by
  have hlength : rrp'.tried.length = rrp.tried.length := by
    obtain ⟨-, htried, -⟩ | ⟨-, htried, -⟩ := ht.effect <;> simp [htried]
  constructor
  · intro side
    rw [hlength]
    exact h.size side
  · intro hsingle i hi
    rw [ht.peers] at hsingle hi ⊢
    obtain ⟨hs, -⟩ | ⟨-, htried, -⟩ := ht.effect
    · rw [hs] at hsingle
      cases hsingle
    · have hp : p / 64 < rrp.tried.length := by
        have := h.size rrp.peers
        have := ht.lt
        omega
      rw [htried, triedBit_setTried hp, selections_get, List.mem_append, List.mem_singleton, Bool.or_eq_true,
        h.tried hsingle i hi, decide_eq_true_iff]
      simp [eq_comm]
  · rw [ht.peers]
    intro hside q hq
    rw [selections_get, List.mem_append, List.mem_singleton] at hq
    obtain hq | hq := hq
    · exact h.primary hside q hq
    · rw [hq]
      exact hside

theorem TriedOk.not_mem {now : ℤ} {u u' : Upstream} {rrp rrp' : RrPeerData} {p : ℕ} {calls : List PeerCall}
    (h : TriedOk u rrp calls) (ht : Takes now u rrp p u' rrp') (hsingle : (u.list rrp.peers).single = false) :
    (rrp.peers, p) ∉ selections calls := by
  obtain ⟨hs, -⟩ | ⟨-, -, hbit, -⟩ := ht.effect
  · rw [hs] at hsingle
    cases hsingle
  · intro hmem
    have := (h.tried hsingle p ht.lt).mpr hmem
    rw [hbit] at this
    cases this

/-- The bits of the backup list are clear when the session turns to it. -/
theorem TriedOk.toBackup {u : Upstream} {rrp : RrPeerData} {calls : List PeerCall} (h : TriedOk u rrp calls)
    (hside : rrp.peers = .primary) : TriedOk u (rrp.toBackup u) calls := by
  constructor
  · intro side
    simp only [RrPeerData.toBackup, length_clearTried]
    exact h.size side
  · intro _ i hi
    simp only [RrPeerData.toBackup] at hi ⊢
    rw [triedBit_clearTried rrp.tried hi]
    constructor
    · intro hfalse
      cases hfalse
    · intro hmem
      have := h.primary hside _ hmem
      cases this
  · intro hprimary
    cases hprimary

theorem triedOk_init {u : Upstream} (hwf : u.Wf) : TriedOk u (ngxStreamUpstreamInitRoundRobinPeer u).1 [] := by
  constructor
  · intro side
    have hnone := hwf.backup_none
    simp only [ngxStreamUpstreamInitRoundRobinPeer]
    cases side <;> cases hnext : u.next <;> simp_all <;> split_ifs <;> simp <;> omega
  · intro _ i _
    simp [triedBit_init, selections]
  · intro _ q hq
    simp [selections] at hq

/-! ### The invariant of a session -/

/-- `peer.tries` of a new session. -/
def firstTries (conf : ProxyConf) (u : Upstream) : ℕ := limitTries conf (ngxStreamUpstreamInitRoundRobinPeer u).2

/-- A session that can still select a peer. What it has selected and what it may still try stay within the tries it
started with; the tries of a single peer are used up with the first. -/
structure LiveOk (conf : ProxyConf) (u : Upstream) (s : ProxySession) : Prop where
  tried : TriedOk u s.data.rrp s.calls
  switched : s.data.rrp.peers = .backup → ∃ peer, .get peer true ∈ s.calls
  waiting : s.sockaddr = false → (selections s.calls).length + s.tries ≤ firstTries conf u
  holding : s.sockaddr = true → (selections s.calls).length + s.tries ≤ firstTries conf u + 1 ∧ s.tries ≠ 0
  connect : s.call = .connect → (selections s.calls = [] ∧ s.tries = firstTries conf u) ∨ s.tries ≠ 0
  single : (u.list s.data.rrp.peers).single = true → selections s.calls ≠ [] → s.sockaddr = false → s.tries = 0

/-- What the retries of a session keep to. -/
structure RetryOk (conf : ProxyConf) (u : Upstream) (s : ProxySession) : Prop where
  nodup : (selections s.calls).Nodup
  up : ∀ q ∈ selections s.calls, q.2 < (u.list q.1).number ∧ ((u.list q.1).peer q.2).down = false
  sides : ∃ xs ys : List ℕ, selections s.calls = xs.map (Prod.mk .primary) ++ ys.map (Prod.mk .backup)
  last : BackupsLast s.calls
  count : (selections s.calls).length ≤ firstTries conf u
  live : s.call = .connect ∨ s.call.Holding → LiveOk conf u s
  fresh : s.call = .handler → s.calls = []

theorem retryOk_start (conf : ProxyConf) (u : Upstream) : RetryOk conf u .start where
  nodup := List.nodup_nil
  up := by intro q hq; cases hq
  sides := ⟨[], [], rfl⟩
  last := by intro pre p exhausted post heq; simp [ProxySession.start] at heq
  count := Nat.zero_le _
  live := by
    intro hlive
    cases hlive with
    | inl h => cases h
    | inr h => exact h.elim
  fresh := fun _ => rfl

/-- The peers change, but not what the configuration made of them. -/
theorem firstTries_keeps {conf : ProxyConf} {u u' : Upstream} (h : u.Keeps u') : firstTries conf u' = firstTries conf u := by
  simp only [firstTries, ngxStreamUpstreamInitRoundRobinPeer, (h.list .primary).tries_eq, (h.list .backup).tries_eq, h.next_eq]

theorem TriedOk.keeps {u u' : Upstream} {rrp : RrPeerData} {calls : List PeerCall} (h : TriedOk u rrp calls)
    (hk : u.Keeps u') : TriedOk u' rrp calls where
  size := by
    intro side
    rw [(hk.list side).number_eq]
    exact h.size side
  tried := by
    rw [(hk.list _).single_eq, (hk.list _).number_eq]
    exact h.tried
  primary := h.primary

theorem RetryOk.keeps {conf : ProxyConf} {u u' : Upstream} {s : ProxySession} (h : RetryOk conf u s) (hk : u.Keeps u')
    (hdown : ∀ side i, ((u'.list side).peer i).down = ((u.list side).peer i).down) : RetryOk conf u' s where
  nodup := h.nodup
  up := by
    intro q hq
    rw [(hk.list q.1).number_eq, hdown]
    exact h.up q hq
  sides := h.sides
  last := h.last
  count := by
    rw [firstTries_keeps hk]
    exact h.count
  live := by
    intro hlive
    have hl := h.live hlive
    constructor
    · exact hl.tried.keeps hk
    · exact hl.switched
    · rw [firstTries_keeps hk]
      exact hl.waiting
    · rw [firstTries_keeps hk]
      exact hl.holding
    · rw [firstTries_keeps hk]
      exact hl.connect
    · rw [(hk.list _).single_eq]
      exact hl.single
  fresh := h.fresh

/-- `peer.tries` is positive when there is a peer that is not down. -/
theorem firstTries_pos (conf : ProxyConf) {u : Upstream} (htries : ∀ side, (u.list side).tries =
    #{i ∈ range (u.list side).number | ((u.list side).peer i).down = false}) (hwf : u.Wf) {side : Tier} {p : ℕ}
    (hlt : p < (u.list side).number) (hup : ((u.list side).peer p).down = false) : firstTries conf u ≠ 0 := by
  have hpos : 0 < (u.list side).tries := by
    rw [htries side, card_pos]
    exact ⟨p, mem_filter.mpr ⟨mem_range.mpr hlt, hup⟩⟩
  have hsum : (ngxStreamUpstreamInitRoundRobinPeer u).2 ≠ 0 := by
    simp only [ngxStreamUpstreamInitRoundRobinPeer]
    cases side with
    | primary => omega
    | backup =>
      have hnext : u.next = true := by
        by_contra hnext
        rw [hwf.backup_none (by simpa using hnext)] at hlt
        cases hlt
      rw [if_pos hnext]
      omega
  rw [firstTries, limitTries]
  split <;> omega

/-! ### A selection -/

/-- A selection of a peer that was not selected before, from the session's list or after the turn to the backups. -/
theorem RetryOk.select {conf : ProxyConf} {now : ℤ} {u u' : Upstream} {s s' : ProxySession} {rrp₁ : RrPeerData} {p : ℕ}
    {exhausted : Bool} (h : RetryOk conf u s) (hok : SessionOk conf s) (hfirst : firstTries conf u ≠ 0)
    (hfrom : s.call = .connect) (hto : s'.call = .finalize ∨ s'.call.Holding) (htried : TriedOk u rrp₁ s.calls)
    (htakes : Takes now u rrp₁ p u' s'.data.rrp) (hnew : (rrp₁.peers, p) ∉ selections s.calls)
    (htries : s'.tries = s.tries) (hsockaddr : s'.sockaddr = true)
    (hcalls : s'.calls = s.calls ++ [.get (some (rrp₁.peers, p)) exhausted])
    (hswitched : rrp₁.peers = .backup → ∃ peer, .get peer true ∈ s'.calls) : RetryOk conf u s' := by
  have hl := h.live (.inl hfrom)
  have hleft : s.tries ≠ 0 := by
    obtain ⟨-, htries⟩ | htries := hl.connect hfrom
    · rw [htries]
      exact hfirst
    · exact htries
  have hbudget := hl.waiting (hok.idle (.inr (.inl hfrom)))
  have hsel : selections s'.calls = selections s.calls ++ [(rrp₁.peers, p)] := by rw [hcalls, selections_get]
  have hlength : (selections s'.calls).length = (selections s.calls).length + 1 := by rw [hsel]; simp
  refine ⟨?_, ?_, ?_, ?_, by omega, ?_, ?_⟩
  · rw [hsel, List.nodup_append]
    refine ⟨h.nodup, List.nodup_singleton _, ?_⟩
    intro q hq q' hq' heq
    rw [List.mem_singleton] at hq'
    exact hnew (hq' ▸ heq ▸ hq)
  · intro q hq
    rw [hsel, List.mem_append, List.mem_singleton] at hq
    obtain hq | hq := hq
    · exact h.up q hq
    · rw [hq]
      exact ⟨htakes.lt, htakes.up⟩
  · obtain ⟨xs, ys, hsides⟩ := h.sides
    cases hside : rrp₁.peers with
    | primary =>
      have hys : ys = [] := by
        cases ys with
        | nil => rfl
        | cons y ys =>
          have := htried.primary hside (.backup, y) (by rw [hsides]; simp)
          cases this
      refine ⟨xs ++ [p], [], ?_⟩
      rw [hsel, hsides, hys, hside]
      simp
    | backup =>
      refine ⟨xs, ys ++ [p], ?_⟩
      rw [hsel, hsides, hside]
      simp
  · rw [hcalls]
    apply backupsLast_append h.last
    intro p' exhausted' heq
    simp only [PeerCall.get.injEq, Option.some.injEq, Prod.mk.injEq] at heq
    rw [← hcalls]
    exact hswitched heq.1.1
  · intro hlive
    constructor
    · rw [hcalls]
      exact htried.takes htakes exhausted
    · rw [htakes.peers]
      exact hswitched
    · intro hset
      rw [hsockaddr] at hset
      cases hset
    · intro _
      rw [htries]
      exact ⟨by omega, hleft⟩
    · intro hconnect
      exact absurd (.inr (.inl hconnect)) (ProxyCall.not_idle_of_holding hto)
    · intro _ _ hset
      rw [hsockaddr] at hset
      cases hset
  · intro hhandler
    exact absurd (.inl hhandler) (ProxyCall.not_idle_of_holding hto)

/-- The only peer of a list without a next one is selected once. -/
theorem LiveOk.selections_nil {conf : ProxyConf} {u : Upstream} {s : ProxySession} (h : LiveOk conf u s)
    (hok : SessionOk conf s) (hfrom : s.call = .connect)
    (hsingle : (u.list s.data.rrp.peers).single = true) : selections s.calls = [] := by
  by_contra hne
  have hzero := h.single hsingle hne (hok.idle (.inr (.inl hfrom)))
  obtain ⟨hnil, -⟩ | htries := h.connect hfrom
  · exact hne hnil
  · exact htries hzero

theorem RetryOk.got {conf : ProxyConf} {m : Moment} {u : Upstream} {s s' : ProxySession} (hwf : u.Wf)
    (htries₀ : ∀ side, (u.list side).tries = #{i ∈ range (u.list side).number | ((u.list side).peer i).down = false})
    (h : RetryOk conf u s) (hok : SessionOk conf s) (hfrom : s.call = .connect)
    (hto : s'.call = .finalize ∨ s'.call.Holding) (hrc : (peerGet conf.method conf.points m u s.data).1 = .ok)
    (hdata : s'.data = (peerGet conf.method conf.points m u s.data).2.2) (htries : s'.tries = s.tries)
    (hsockaddr : s'.sockaddr = true)
    (hcalls : s'.calls = s.calls ++ [.get s'.data.rrp.current (noneEligible m.now u s.calls)]) : RetryOk conf u s' := by
  have hl := h.live (.inl hfrom)
  have hselects := (peerGet_chooses hwf conf.method conf.points m hok.settled).selects
  rw [hrc, ← hdata] at hselects
  cases hselects with
  | took htakes =>
    have hfirst := firstTries_pos conf htries₀ hwf htakes.lt htakes.up
    rw [htakes.current] at hcalls
    apply h.select hok hfirst hfrom hto hl.tried htakes _ htries hsockaddr hcalls
    · intro hside
      obtain ⟨peer, hpeer⟩ := hl.switched hside
      rw [hcalls]
      exact ⟨peer, List.mem_append_left _ hpeer⟩
    · cases hsingle : (u.list s.data.rrp.peers).single with
      | true =>
        rw [hl.selections_nil hok hfrom hsingle]
        exact List.not_mem_nil
      | false => exact hl.tried.not_mem htakes hsingle
  | tookBackup hside hnext hnone htakes =>
    have hfirst := firstTries_pos conf htries₀ hwf htakes.lt htakes.up
    have hexhausted := noneEligible_of_exhausted hwf hl.tried hside hnext hnone
    have hsingle : (u.list (s.data.rrp.toBackup u).peers).single = false := by
      by_contra hsingle
      have := (hwf.single _ (by simpa using hsingle)).2
      rw [hnext] at this
      cases this
    have htried := hl.tried.toBackup hside
    rw [htakes.current, hexhausted] at hcalls
    apply h.select hok hfirst hfrom hto htried htakes (htried.not_mem htakes hsingle) htries hsockaddr hcalls
    intro _
    rw [hcalls]
    exact ⟨_, List.mem_append_right _ (List.mem_singleton_self _)⟩

/-- A call that selects no peer. -/
theorem RetryOk.noSelection {conf : ProxyConf} {u : Upstream} {s s' : ProxySession} {call : PeerCall}
    (h : RetryOk conf u s) (hcalls : s'.calls = s.calls ++ [call]) (hcall : selections [call] = [])
    (hlive : s'.call = .connect ∨ s'.call.Holding → LiveOk conf u s') (hfresh : s'.call ≠ .handler) :
    RetryOk conf u s' := by
  have hsel : selections s'.calls = selections s.calls := by rw [hcalls, selections_append, hcall, List.append_nil]
  refine ⟨hsel ▸ h.nodup, hsel ▸ h.up, hsel ▸ h.sides, ?_, hsel ▸ h.count, hlive, fun h => absurd h hfresh⟩
  rw [hcalls]
  apply backupsLast_append h.last
  intro p exhausted heq
  rw [heq] at hcall
  simp [selections] at hcall

/-- A call that does not ask the load balancer. -/
theorem RetryOk.sameCalls {conf : ProxyConf} {u : Upstream} {s s' : ProxySession} (h : RetryOk conf u s)
    (hcalls : s'.calls = s.calls) (hlive : s'.call = .connect ∨ s'.call.Holding → LiveOk conf u s')
    (hfresh : s'.call ≠ .handler) : RetryOk conf u s' :=
  ⟨hcalls ▸ h.nodup, hcalls ▸ h.up, hcalls ▸ h.sides, hcalls ▸ h.last, hcalls ▸ h.count, hlive,
    fun h => absurd h hfresh⟩

theorem RetryOk.freed {conf : ProxyConf} {u : Upstream} {s s' : ProxySession} {failed : Bool} {now : ℤ}
    (h : RetryOk conf u s) (hok : SessionOk conf s)
    (hto : s'.call = .finalize ∨ s'.call = .finalized ∨ s'.call = .connect ∧ s.call = .nextUpstream ∧ s'.tries ≠ 0)
    (hheld : s.sockaddr = true) (hdata : s'.data = s.data)
    (htries : s'.tries = (ngxStreamUpstreamFreeRoundRobinPeer failed now u s.data.rrp s.tries).2)
    (hsockaddr : s'.sockaddr = false) (hcalls : s'.calls = s.calls ++ [.free s.data.rrp.current]) : RetryOk conf u s' := by
  have hsel : selections s'.calls = selections s.calls := by rw [hcalls, selections_append]; simp [selections]
  obtain ⟨held, hcurrent⟩ := Option.ne_none_iff_exists'.mp (hok.held hheld).1
  have htries' : s'.tries = if (u.list s.data.rrp.peers).single then 0 else s.tries - 1 := by
    rw [htries, ngxStreamUpstreamFreeRoundRobinPeer, hcurrent]
    cases (u.list s.data.rrp.peers).single <;> rfl
  apply h.noSelection hcalls rfl
  · intro hlive
    obtain hto | hto | ⟨hto, hfrom, hgo⟩ := hto
    · simp [hto, ProxyCall.Holding] at hlive
    · simp [hto, ProxyCall.Holding] at hlive
    · have hl := h.live (.inr (by rw [hfrom]; trivial))
      obtain ⟨hbudget, hleft⟩ := hl.holding hheld
      constructor
      · rw [hdata]
        refine ⟨hl.tried.size, ?_, ?_⟩
        · rw [hsel]
          exact hl.tried.tried
        · rw [hsel]
          exact hl.tried.primary
      · rw [hdata]
        intro hside
        obtain ⟨peer, hpeer⟩ := hl.switched hside
        rw [hcalls]
        exact ⟨peer, List.mem_append_left _ hpeer⟩
      · intro _
        rw [hsel, htries']
        split <;> omega
      · intro hset
        rw [hsockaddr] at hset
        cases hset
      · intro _
        exact .inr hgo
      · rw [hdata]
        intro hsingle _ _
        rw [htries', if_pos hsingle]
  · obtain hto | hto | ⟨hto, -⟩ := hto <;> rw [hto] <;> simp

theorem RetryOk.moves {conf : ProxyConf} {u u' : Upstream} {s s' : ProxySession} (hwf : u.Wf)
    (htries₀ : ∀ side, (u.list side).tries = #{i ∈ range (u.list side).number | ((u.list side).peer i).down = false})
    (h : RetryOk conf u s) (hok : SessionOk conf s) (hm : Moves conf u s u' s') : RetryOk conf u s' := by
  cases hm with
  | init key hfrom hto hu hdata htries hsockaddr hcalls =>
    apply h.sameCalls hcalls
    · intro _
      have hnil : s'.calls = [] := hcalls.trans (h.fresh hfrom)
      constructor
      · rw [hdata, hnil]
        exact triedOk_init hwf
      · rw [hdata]
        intro hside
        cases hside
      · intro _
        rw [hnil, htries]
        simp [selections, firstTries, peerInit]
      · intro hset
        rw [hsockaddr, hok.idle (.inl hfrom)] at hset
        cases hset
      · intro _
        rw [hnil, htries]
        exact .inl ⟨rfl, rfl⟩
      · intro _ hne
        rw [hnil] at hne
        exact absurd rfl hne
    · rw [hto]
      simp
  | quiet hto hu hdata htries hsockaddr hcalls =>
    have hnot := ProxyCall.not_idle_of_holding (hto.imp_right And.right)
    apply h.sameCalls hcalls
    · intro hlive
      obtain hto | ⟨hfrom, -⟩ := hto
      · simp [hto, ProxyCall.Holding] at hlive
      · have hl := h.live (.inr hfrom)
        constructor
        · rw [hdata, hcalls]
          exact hl.tried
        · rw [hdata, hcalls]
          exact hl.switched
        · rw [hsockaddr, hcalls, htries]
          exact hl.waiting
        · rw [hsockaddr, hcalls, htries]
          exact hl.holding
        · intro hconnect
          exact absurd (.inr (.inl hconnect)) hnot
        · rw [hdata, hcalls, hsockaddr, htries]
          exact hl.single
    · exact fun hhandler => hnot (.inl hhandler)
  | got m hfrom hto hrc hu hdata htries hsockaddr hcalls =>
    exact h.got hwf htries₀ hok hfrom hto hrc hdata htries hsockaddr hcalls
  | busy m hfrom hto hbusy hu hdata htries hsockaddr hcalls =>
    apply h.noSelection hcalls rfl
    · intro hlive
      simp [hto, ProxyCall.Holding] at hlive
    · rw [hto]
      simp
  | freed failed now hfrom hto hheld hu hdata htries hsockaddr hcalls =>
    exact h.freed hok hto hheld hdata htries hsockaddr hcalls
  | nothing hfrom hto hheld hu hdata htries hsockaddr hcalls =>
    apply h.sameCalls hcalls
    · intro hlive
      obtain hto | hto | ⟨hto, hnext⟩ := hto
      · simp [hto, ProxyCall.Holding] at hlive
      · simp [hto, ProxyCall.Holding] at hlive
      · have hset := hok.holding (by rw [hnext]; trivial)
        rw [hheld] at hset
        cases hset
    · obtain hto | hto | ⟨hto, -⟩ := hto <;> rw [hto] <;> simp

/-! ### All sessions -/

structure Retries (u₀ : Upstream) (conf : ProxyConf) (p : Proxy) : Prop where
  accounts : Accounts u₀ conf p
  down : ∀ side i, ((p.upstream.list side).peer i).down = ((u₀.list side).peer i).down
  session : ∀ i, i < p.number → RetryOk conf p.upstream (p.session i)

theorem Retries.step {u₀ : Upstream} (hwf : u₀.Wf) (hfresh : ∀ side, (u₀.list side).Fresh) {conf : ProxyConf}
    {p : Proxy} (h : Retries u₀ conf p) (e : ProxyEvent) : Retries u₀ conf (p.step conf e) := by
  have haccounts := h.accounts.step hwf e
  obtain heq | heq | ⟨i, u', s', hi, hm, heq⟩ := p.step_cases conf e
  · rw [heq]
    exact h
  · rw [heq] at haccounts ⊢
    refine ⟨haccounts, h.down, ?_⟩
    intro j hj
    by_cases hnew : j = p.number
    · subst hnew
      simpa using retryOk_start conf p.upstream
    · simp only [Function.update_of_ne hnew]
      exact h.session j (by simp at hj; omega)
  · have hwf' := hwf.keeps h.accounts.keeps
    have hok := h.accounts.session i hi
    have hk := hm.keeps hwf' hok
    have hdown := hm.down hwf' hok
    have htries : ∀ side, (p.upstream.list side).tries =
        #{i ∈ range (p.upstream.list side).number | ((p.upstream.list side).peer i).down = false} := by
      intro side
      simp only [(h.accounts.keeps.list side).tries_eq, (h.accounts.keeps.list side).number_eq, h.down]
      exact (hfresh side).tries_eq
    rw [heq] at haccounts ⊢
    refine ⟨haccounts, ?_, ?_⟩
    · intro side j
      rw [hdown side j, h.down]
    · intro j hj
      by_cases hji : j = i
      · subst hji
        simpa using ((h.session j hj).moves hwf' htries hok hm).keeps hk hdown
      · simp only [Function.update_of_ne hji]
        exact (h.session j hj).keeps hk hdown

/-- The number of peers of a list that are not down. -/
def RrPeers.upNumber (l : RrPeers) : ℕ := #{i ∈ range l.number | (l.peer i).down = false}

/-- In every state of every run a session has selected no peer twice and none that is down, first primary peers and
then backups, a backup only with or after a selection in which no primary peer was eligible, and no more peers than are
not down, or than `proxy_next_upstream_tries` allows. -/
theorem proxy_retries {conf : UpstreamConf} {u : Upstream} (hconf : ngxStreamUpstreamInitRoundRobin conf = some u)
    (proxy : ProxyConf) (events : List ProxyEvent) (i : ℕ)
    (hi : i < (run (Proxy.step proxy) (Proxy.start u) events).number) :
    let calls := ((run (Proxy.step proxy) (Proxy.start u) events).session i).calls
    (selections calls).Nodup ∧
      (∀ side p, (side, p) ∈ selections calls → p < (u.list side).number ∧ ((u.list side).peer p).down = false) ∧
      BackupsLast calls ∧
      (∃ xs ys : List ℕ, selections calls = xs.map (Prod.mk .primary) ++ ys.map (Prod.mk .backup)) ∧
      (selections calls).length ≤ limitTries proxy ((u.list .primary).upNumber + (u.list .backup).upNumber) := by
  obtain ⟨hwf, hfresh⟩ := ngxStreamUpstreamInitRoundRobin_spec hconf
  have hstart : Retries u proxy (Proxy.start u) :=
    ⟨accounts_start proxy hfresh, fun _ _ => rfl, fun i hi => by cases hi⟩
  have h := run_induction (I := Retries u proxy) (fun _ e h => h.step hwf hfresh e) hstart events
  have hsession := h.session i hi
  have hk := h.accounts.keeps
  intro calls
  refine ⟨hsession.nodup, ?_, hsession.last, hsession.sides, ?_⟩
  · intro side p hq
    have := hsession.up (side, p) hq
    rw [(hk.list side).number_eq, h.down] at this
    exact this
  · have hcount := hsession.count
    rw [firstTries_keeps hk, firstTries, ngxStreamUpstreamInitRoundRobinPeer] at hcount
    have hbackup : (if u.next then (u.list .backup).tries else 0) = (u.list .backup).tries := by
      cases hnext : u.next with
      | true => rfl
      | false => rw [(hfresh .backup).tries_eq, hwf.backup_none hnext]; rfl
    rw [hbackup, (hfresh .primary).tries_eq, (hfresh .backup).tries_eq] at hcount
    exact hcount

/-- The session that is refused by the first of two servers selects the second. -/
theorem proxy_retries_refusedRun :
    ∃ u, ngxStreamUpstreamInitRoundRobin plainServers = some u ∧
      (let p := run (Proxy.step plainProxy) (Proxy.start u) refusedRun
       selections (p.session 0).calls = [(.primary, 0), (.primary, 1)] ∧ (selections (p.session 0).calls).Nodup) := by
  have hconf : ngxStreamUpstreamInitRoundRobin plainServers = some _ := rfl
  exact ⟨_, hconf, by decide, (proxy_retries hconf plainProxy refusedRun 0 (by decide)).1⟩

end NginxDtls
