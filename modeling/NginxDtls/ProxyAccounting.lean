import NginxDtls.ProxySession

/-! The connection counts of the peers. Whatever the sessions do and in whatever order, the count of a peer is the
number of sessions that hold it, so a count can neither leak nor go below zero, and a peer with a limit stays within
it. -/

namespace NginxDtls

open Finset Run

/-! ### Calls in pairs -/

theorem paired_append (held : Option (Tier × ℕ)) (calls : List PeerCall) (call : PeerCall) :
    Paired held (calls ++ [call]) ↔ Paired held calls ∧ Paired (calls.foldl heldAfter held) [call] := by
  induction calls generalizing held with
  | nil => simp [Paired]
  | cons c calls ih =>
    cases held with
    | none =>
      cases c with
      | get peer exhausted =>
        cases peer with
        | none => exact ih none
        | some peer => exact ih (some peer)
      | free peer => simp [Paired]
    | some held =>
      cases c with
      | get peer exhausted => simp [Paired]
      | free peer =>
        simp only [List.cons_append, Paired, List.foldl_cons, heldAfter, and_assoc]
        exact and_congr_right fun _ => ih none

theorem heldPeer_append (calls : List PeerCall) (call : PeerCall) :
    heldPeer (calls ++ [call]) = heldAfter (heldPeer calls) call := by
  simp [heldPeer]

/-! ### The counts after a call -/

def Upstream.conns (u : Upstream) (q : Tier × ℕ) : ℤ := ((u.list q.1).peer q.2).conns

theorem Upstream.conns_modify (u : Upstream) (side : Tier) (f : RrPeers → RrPeers) (q : Tier × ℕ) :
    (u.modify side f).conns q = if q.1 = side then ((f (u.list side)).peer q.2).conns else u.conns q := by
  by_cases h : q.1 = side
  · rw [if_pos h, Upstream.conns, h]
    simp [Upstream.modify]
  · simp [Upstream.conns, Upstream.modify, h]

theorem RrPeers.conns_modify (l : RrPeers) (p : ℕ) (f : RrPeer → RrPeer) (i : ℕ) :
    ((l.modify p f).peer i).conns = if i = p then (f (l.peer p)).conns else (l.peer i).conns := by
  by_cases h : i = p
  · subst h
    simp [RrPeers.modify]
  · simp [RrPeers.modify, h]

@[simp]
theorem RrPeer.check_conns (peer : RrPeer) (now : ℤ) : (peer.check now).conns = peer.conns := by
  rw [RrPeer.check]
  split <;> rfl

theorem served_conns (l : RrPeers) (E : Finset ℕ) (p : ℕ) (now : ℤ) (i : ℕ) :
    ((served l E p now).peer i).conns = (l.peer i).conns + if i = p then 1 else 0 := by
  simp only [served]
  split <;> split <;> simp [RrPeer.connect, RrPeer.pay, RrPeer.gain]

theorem Takes.conns {now : ℤ} {u u' : Upstream} {rrp rrp' : RrPeerData} {p : ℕ} (h : Takes now u rrp p u' rrp')
    (q : Tier × ℕ) : u'.conns q = u.conns q + if q = (rrp.peers, p) then 1 else 0 := by
  obtain ⟨side, i⟩ := q
  obtain ⟨f, heq, hf⟩ := h.cases_list
  have hone : ((f (u.list rrp.peers)).peer i).conns = ((u.list rrp.peers).peer i).conns + if i = p then 1 else 0 := by
    obtain hf | ⟨E, -, hf⟩ := hf
    · rw [hf, RrPeers.conns_modify]
      by_cases hi : i = p
      · simp [hi, RrPeer.connect]
      · simp [hi]
    · rw [hf, served_conns]
  rw [heq, Upstream.conns_modify]
  by_cases hside : side = rrp.peers
  · subst hside
    simpa [Upstream.conns] using hone
  · simp [hside, Upstream.conns]

theorem RrPeer.freed_conns (single failed : Bool) (now : ℤ) (peer : RrPeer) :
    (peer.freed single failed now).conns = peer.conns - 1 := by
  obtain h | h := peer.live_eq <;> cases single <;> cases failed <;> simp [freed, disconnect, fail, h]

theorem ngxStreamUpstreamFreeRoundRobinPeer_conns (failed : Bool) (now : ℤ) (u : Upstream) {rrp : RrPeerData}
    (tries : ℕ) {held : Tier × ℕ} (h : rrp.current = some held) (q : Tier × ℕ) :
    (ngxStreamUpstreamFreeRoundRobinPeer failed now u rrp tries).1.conns q =
      u.conns q - if q = held then 1 else 0 := by
  obtain ⟨side, i⟩ := q
  obtain ⟨side', p⟩ := held
  rw [ngxStreamUpstreamFreeRoundRobinPeer_fst, h]
  simp only [Upstream.conns_modify, RrPeers.conns_modify, RrPeer.freed_conns]
  by_cases hside : side = side'
  · subst hside
    by_cases hi : i = p
    · subst hi
      simp [Upstream.conns]
    · simp [hi, Upstream.conns]
  · simp [hside]

theorem ngxStreamUpstreamNotifyRoundRobinPeer_conns (u : Upstream) (rrp : RrPeerData) (q : Tier × ℕ) :
    (ngxStreamUpstreamNotifyRoundRobinPeer u rrp).conns q = u.conns q := by
  rw [ngxStreamUpstreamNotifyRoundRobinPeer]
  cases rrp.current with
  | none => rfl
  | some held =>
    have hlive : ∀ peer : RrPeer, peer.live.conns = peer.conns := by
      intro peer
      obtain h | h := peer.live_eq <;> simp [h]
    simp only [Upstream.conns_modify, RrPeers.conns_modify, hlive]
    split
    · rename_i hside
      split
      · rename_i hi
        rw [Upstream.conns, hside, hi]
      · rw [Upstream.conns, hside]
    · rfl

/-- What a selection comes to: without success nothing is changed, and with it a peer of one of the lists is taken. -/
theorem Selects.cases_takes {now : ℤ} {u u' : Upstream} {rrp rrp' : RrPeerData} {rc : NgxInt}
    (h : Selects now u rrp (rc, u', rrp')) :
    (rc ≠ .ok ∧ u' = u) ∨ (rc = .ok ∧ ∃ rrp₁ p, Takes now u rrp₁ p u' rrp') := by
  cases h with
  | took h => exact .inr ⟨rfl, _, _, h⟩
  | tookBackup hside hnext hnone h => exact .inr ⟨rfl, _, _, h⟩
  | busy => exact .inl ⟨by simp, rfl⟩
  | busyBackup hside hnext hnone => exact .inl ⟨by simp, rfl⟩

/-! ### The sessions -/

/-- The number of sessions that hold a peer. -/
def Proxy.holders (p : Proxy) (q : Tier × ℕ) : ℕ := #{i ∈ range p.number | heldPeer (p.session i).calls = some q}

theorem Proxy.holders_eq_sum (p : Proxy) (q : Tier × ℕ) :
    (p.holders q : ℤ) = ∑ i ∈ range p.number, if heldPeer (p.session i).calls = some q then 1 else 0 := by
  rw [Proxy.holders, card_filter]
  push_cast
  rfl

/-- A step of a session changes what this session adds to the number. -/
theorem Proxy.holders_update (p : Proxy) (u' : Upstream) {i : ℕ} (hi : i < p.number) (s' : ProxySession) (q : Tier × ℕ) :
    (({ p with upstream := u', session := Function.update p.session i s' } : Proxy).holders q : ℤ) =
      p.holders q - (if heldPeer (p.session i).calls = some q then 1 else 0) +
        if heldPeer s'.calls = some q then 1 else 0 := by
  have hmem : i ∈ range p.number := mem_range.mpr hi
  rw [Proxy.holders_eq_sum, Proxy.holders_eq_sum, ← add_sum_erase _ _ hmem, ← add_sum_erase _ _ hmem]
  simp only [Function.update_self]
  have hrest : ∑ j ∈ (range p.number).erase i,
      (if heldPeer (Function.update p.session i s' j).calls = some q then (1 : ℤ) else 0) =
      ∑ j ∈ (range p.number).erase i, if heldPeer (p.session j).calls = some q then 1 else 0 := by
    apply sum_congr rfl
    intro j hj
    rw [Function.update_of_ne (ne_of_mem_erase hj)]
  rw [hrest]
  ring

theorem Proxy.holders_accept (p : Proxy) (q : Tier × ℕ) :
    (({ p with number := p.number + 1, session := Function.update p.session p.number .start } : Proxy).holders q : ℤ) =
      p.holders q := by
  rw [Proxy.holders_eq_sum, Proxy.holders_eq_sum, sum_range_succ]
  simp only [Function.update_self]
  have hrest : ∑ j ∈ range p.number,
      (if heldPeer (Function.update p.session p.number .start j).calls = some q then (1 : ℤ) else 0) =
      ∑ j ∈ range p.number, if heldPeer (p.session j).calls = some q then 1 else 0 := by
    apply sum_congr rfl
    intro j hj
    rw [Function.update_of_ne (Nat.ne_of_lt (mem_range.mp hj))]
  rw [hrest]
  simp [ProxySession.start, heldPeer]

/-- What holds of a session between its calls: the address of a peer is set exactly while the session holds it, which
it does in the calls after a selection and not in those before one. -/
structure SessionOk (conf : ProxyConf) (s : ProxySession) : Prop where
  settled : s.data.rrp.peers = .backup → s.data.Settled conf.method
  paired : Paired none s.calls
  held : s.sockaddr = true → s.data.rrp.current ≠ none ∧ heldPeer s.calls = s.data.rrp.current
  unheld : s.sockaddr = false → heldPeer s.calls = none
  holding : s.call.Holding → s.sockaddr = true
  idle : s.call = .handler ∨ s.call = .connect ∨ s.call = .finalized → s.sockaddr = false

theorem sessionOk_start (conf : ProxyConf) : SessionOk conf .start where
  settled := by intro h; cases h
  paired := trivial
  held := by intro h; cases h
  unheld := fun _ => rfl
  holding := fun h => h.elim
  idle := fun _ => rfl

theorem ProxyCall.not_idle_of_holding {call : ProxyCall} (h : call = .finalize ∨ call.Holding) :
    ¬ (call = .handler ∨ call = .connect ∨ call = .finalized) := by
  rintro (rfl | rfl | rfl) <;> simp [ProxyCall.Holding] at h

/-- A move keeps what holds of the session. -/
theorem SessionOk.moves {conf : ProxyConf} {u u' : Upstream} {s s' : ProxySession} (hwf : u.Wf) (h : SessionOk conf s)
    (hm : Moves conf u s u' s') : SessionOk conf s' := by
  cases hm with
  | init key hfrom hto hu hdata htries hsockaddr hcalls =>
    have hfree : s.sockaddr = false := h.idle (.inl hfrom)
    rw [hfree] at hsockaddr
    refine ⟨?_, hcalls ▸ h.paired, ?_, ?_, ?_, fun _ => hsockaddr⟩
    · rw [hdata]
      intro hside
      cases hside
    · intro hset
      rw [hsockaddr] at hset
      cases hset
    · intro _
      rw [hcalls]
      exact h.unheld hfree
    · rw [hto]
      exact fun hholding => hholding.elim
  | quiet hto hu hdata htries hsockaddr hcalls =>
    refine ⟨hdata ▸ h.settled, hcalls ▸ h.paired, ?_, ?_, ?_, ?_⟩
    · rw [hsockaddr, hdata, hcalls]
      exact h.held
    · rw [hsockaddr, hcalls]
      exact h.unheld
    · rw [hsockaddr]
      intro hholding
      obtain hto | ⟨hfrom, -⟩ := hto
      · rw [hto] at hholding
        exact hholding.elim
      · exact h.holding hfrom
    · intro hidle
      exact absurd hidle (ProxyCall.not_idle_of_holding (hto.imp_right And.right))
  | got m hfrom hto hok hu hdata htries hsockaddr hcalls =>
    have hfree : s.sockaddr = false := h.idle (.inr (.inl hfrom))
    have hchooses := peerGet_chooses hwf conf.method conf.points m h.settled
    have hcurrent : s'.data.rrp.current ≠ none := by
      rw [hdata]
      obtain ⟨hrc, -⟩ | ⟨-, rrp₁, p, htakes⟩ := hchooses.selects.cases_takes
      · exact absurd hok hrc
      · rw [htakes.current]
        simp
    refine ⟨?_, ?_, ?_, ?_, fun _ => hsockaddr, ?_⟩
    · rw [hdata]
      exact hchooses.settled
    · rw [hcalls, paired_append]
      refine ⟨h.paired, ?_⟩
      have hnone : s.calls.foldl heldAfter none = none := h.unheld hfree
      rw [hnone]
      trivial
    · intro _
      refine ⟨hcurrent, ?_⟩
      rw [hcalls, heldPeer_append]
      cases hc : s'.data.rrp.current with
      | none => exact absurd hc hcurrent
      | some q => rfl
    · intro hset
      rw [hsockaddr] at hset
      cases hset
    · intro hidle
      exact absurd hidle (ProxyCall.not_idle_of_holding hto)
  | busy m hfrom hto hbusy hu hdata htries hsockaddr hcalls =>
    have hfree : s.sockaddr = false := h.idle (.inr (.inl hfrom))
    have hnone : s.calls.foldl heldAfter none = none := h.unheld hfree
    rw [hfree] at hsockaddr
    refine ⟨?_, ?_, ?_, ?_, ?_, fun _ => hsockaddr⟩
    · rw [hdata]
      exact (peerGet_chooses hwf conf.method conf.points m h.settled).settled
    · rw [hcalls, paired_append, hnone]
      exact ⟨h.paired, trivial⟩
    · intro hset
      rw [hsockaddr] at hset
      cases hset
    · intro _
      rw [hcalls, heldPeer_append]
      exact h.unheld hfree
    · rw [hto]
      exact fun hholding => hholding.elim
  | freed failed now hfrom hto hheld hu hdata htries hsockaddr hcalls =>
    obtain ⟨hcurrent, hsame⟩ := h.held hheld
    refine ⟨hdata ▸ h.settled, ?_, ?_, ?_, ?_, fun _ => hsockaddr⟩
    · rw [hcalls, paired_append]
      refine ⟨h.paired, ?_⟩
      have hfold : s.calls.foldl heldAfter none = s.data.rrp.current := hsame
      rw [hfold]
      cases hc : s.data.rrp.current with
      | none => exact absurd hc hcurrent
      | some q => exact ⟨rfl, trivial⟩
    · intro hset
      rw [hsockaddr] at hset
      cases hset
    · intro _
      rw [hcalls, heldPeer_append]
      rfl
    · intro hholding
      obtain hto | hto | ⟨hto, -⟩ := hto <;> rw [hto] at hholding <;> exact hholding.elim
  | nothing hfrom hto hheld hu hdata htries hsockaddr hcalls =>
    refine ⟨hdata ▸ h.settled, hcalls ▸ h.paired, ?_, ?_, ?_, fun _ => hsockaddr⟩
    · intro hset
      rw [hsockaddr] at hset
      cases hset
    · intro _
      rw [hcalls]
      exact h.unheld hheld
    · intro hholding
      obtain hto | hto | ⟨hto, -⟩ := hto <;> rw [hto] at hholding <;> exact hholding.elim

/-! ### The counts -/

/-- The counts are right and within their limits. -/
structure Accounts (u₀ : Upstream) (conf : ProxyConf) (p : Proxy) : Prop where
  keeps : u₀.Keeps p.upstream
  conns : ∀ side i, i < (u₀.list side).number → p.upstream.conns (side, i) = p.holders (side, i)
  limit : ∀ side i, i < (u₀.list side).number → ((u₀.list side).peer i).maxConns ≠ 0 →
    p.upstream.conns (side, i) ≤ ((u₀.list side).peer i).maxConns
  session : ∀ i, i < p.number → SessionOk conf (p.session i)

/-- A move changes the count of a peer as it changes what its session adds to the number of holders. -/
theorem Moves.conns {conf : ProxyConf} {u u' : Upstream} {s s' : ProxySession} (hwf : u.Wf) (h : SessionOk conf s)
    (hm : Moves conf u s u' s') (q : Tier × ℕ) :
    u'.conns q = u.conns q - (if heldPeer s.calls = some q then 1 else 0) +
      if heldPeer s'.calls = some q then 1 else 0 := by
  cases hm with
  | init key hfrom hto hu hdata htries hsockaddr hcalls =>
    rw [hu, hcalls]
    ring
  | quiet hto hu hdata htries hsockaddr hcalls =>
    have hsame : u'.conns q = u.conns q := by
      obtain hu | hu := hu
      · rw [hu]
      · rw [hu, ngxStreamUpstreamNotifyRoundRobinPeer_conns]
    rw [hsame, hcalls]
    ring
  | got m hfrom hto hok hu hdata htries hsockaddr hcalls =>
    have hfree : heldPeer s.calls = none := h.unheld (h.idle (.inr (.inl hfrom)))
    obtain ⟨hrc, -⟩ | ⟨-, rrp₁, p, htakes⟩ :=
      (peerGet_chooses hwf conf.method conf.points m h.settled).selects.cases_takes
    · exact absurd hok hrc
    · rw [← hu, ← hdata] at htakes
      rw [htakes.conns q, hcalls, heldPeer_append, hfree, htakes.current]
      simp only [heldAfter, reduceCtorEq, if_false, Option.some.injEq, eq_comm]
      ring
  | busy m hfrom hto hbusy hu hdata htries hsockaddr hcalls =>
    have hfree : heldPeer s.calls = none := h.unheld (h.idle (.inr (.inl hfrom)))
    obtain ⟨-, hsame⟩ | ⟨hrc, -⟩ :=
      (peerGet_chooses hwf conf.method conf.points m h.settled).selects.cases_takes
    · rw [hu, hsame, hcalls, heldPeer_append, hfree]
      simp [heldAfter]
    · exact absurd hrc hbusy
  | freed failed now hfrom hto hheld hu hdata htries hsockaddr hcalls =>
    obtain ⟨hcurrent, hsame⟩ := h.held hheld
    obtain ⟨held, hc⟩ := Option.ne_none_iff_exists'.mp hcurrent
    rw [hu, ngxStreamUpstreamFreeRoundRobinPeer_conns failed now u s.tries hc q, hcalls, heldPeer_append, hsame, hc]
    simp [heldAfter, eq_comm]
  | nothing hfrom hto hheld hu hdata htries hsockaddr hcalls =>
    rw [hu, hcalls]
    ring

/-- A move keeps a count within its limit. -/
theorem Moves.limit {conf : ProxyConf} {u u' : Upstream} {s s' : ProxySession} (hwf : u.Wf) (h : SessionOk conf s)
    (hm : Moves conf u s u' s') (q : Tier × ℕ) (hmax : ((u.list q.1).peer q.2).maxConns ≠ 0)
    (hle : u.conns q ≤ ((u.list q.1).peer q.2).maxConns) : u'.conns q ≤ ((u.list q.1).peer q.2).maxConns := by
  cases hm with
  | init key hfrom hto hu hdata htries hsockaddr hcalls => rwa [hu]
  | quiet hto hu hdata htries hsockaddr hcalls =>
    obtain hu | hu := hu
    · rwa [hu]
    · rwa [hu, ngxStreamUpstreamNotifyRoundRobinPeer_conns]
  | got m hfrom hto hok hu hdata htries hsockaddr hcalls =>
    obtain ⟨-, hsame⟩ | ⟨-, rrp₁, p, htakes⟩ :=
      (peerGet_chooses hwf conf.method conf.points m h.settled).selects.cases_takes
    · rwa [hu, hsame]
    · rw [← hu] at htakes
      rw [htakes.conns q]
      split
      · rename_i hq
        have hfits := htakes.fits
        rw [hq] at hmax ⊢
        have := hfits hmax
        simp only [Upstream.conns]
        omega
      · simpa using hle
  | busy m hfrom hto hbusy hu hdata htries hsockaddr hcalls =>
    obtain ⟨-, hsame⟩ | ⟨hrc, -⟩ :=
      (peerGet_chooses hwf conf.method conf.points m h.settled).selects.cases_takes
    · rwa [hu, hsame]
    · exact absurd hrc hbusy
  | freed failed now hfrom hto hheld hu hdata htries hsockaddr hcalls =>
    obtain ⟨hcurrent, -⟩ := h.held hheld
    obtain ⟨held, hc⟩ := Option.ne_none_iff_exists'.mp hcurrent
    rw [hu, ngxStreamUpstreamFreeRoundRobinPeer_conns failed now u s.tries hc q]
    split <;> omega
  | nothing hfrom hto hheld hu hdata htries hsockaddr hcalls => rwa [hu]

theorem Moves.keeps {conf : ProxyConf} {u u' : Upstream} {s s' : ProxySession} (hwf : u.Wf) (h : SessionOk conf s)
    (hm : Moves conf u s u' s') : u.Keeps u' := by
  cases hm with
  | init key hfrom hto hu hdata htries hsockaddr hcalls => rw [hu]; exact .refl u
  | quiet hto hu hdata htries hsockaddr hcalls =>
    obtain hu | hu := hu
    · rw [hu]
      exact .refl u
    · rw [hu]
      exact ngxStreamUpstreamNotifyRoundRobinPeer_keeps u _
  | got m hfrom hto hok hu hdata htries hsockaddr hcalls =>
    rw [hu]
    exact (peerGet_chooses hwf conf.method conf.points m h.settled).selects.keeps
  | busy m hfrom hto hbusy hu hdata htries hsockaddr hcalls =>
    rw [hu]
    exact (peerGet_chooses hwf conf.method conf.points m h.settled).selects.keeps
  | freed failed now hfrom hto hheld hu hdata htries hsockaddr hcalls =>
    rw [hu]
    exact ngxStreamUpstreamFreeRoundRobinPeer_keeps ..
  | nothing hfrom hto hheld hu hdata htries hsockaddr hcalls => rw [hu]; exact .refl u

theorem Accounts.step {u₀ : Upstream} (hwf : u₀.Wf) {conf : ProxyConf} {p : Proxy} (h : Accounts u₀ conf p)
    (e : ProxyEvent) : Accounts u₀ conf (p.step conf e) := by
  obtain heq | heq | ⟨i, u', s', hi, hm, heq⟩ := p.step_cases conf e
  · rw [heq]
    exact h
  · rw [heq]
    refine ⟨h.keeps, ?_, h.limit, ?_⟩
    · intro side j hj
      rw [Proxy.holders_accept]
      exact h.conns side j hj
    · intro j hj
      by_cases hnew : j = p.number
      · subst hnew
        simpa using sessionOk_start conf
      · simp only [Function.update_of_ne hnew]
        exact h.session j (by simp at hj; omega)
  · have hwf' := hwf.keeps h.keeps
    have hok := h.session i hi
    rw [heq]
    refine ⟨h.keeps.trans (hm.keeps hwf' hok), ?_, ?_, ?_⟩
    · intro side j hj
      rw [Proxy.holders_update p u' hi s', ← h.conns side j hj]
      exact hm.conns hwf' hok (side, j)
    · intro side j hj hmax
      have hsame := (h.keeps.list side).maxConns_eq j
      have := hm.limit hwf' hok (side, j) (by rw [hsame]; exact hmax) (by rw [hsame]; exact h.limit side j hj hmax)
      rwa [hsame] at this
    · intro j hj
      by_cases hji : j = i
      · subst hji
        simpa using hok.moves hwf' hm
      · simp only [Function.update_of_ne hji]
        exact h.session j hj

theorem accounts_start {u : Upstream} (conf : ProxyConf) (hfresh : ∀ side, (u.list side).Fresh) :
    Accounts u conf (Proxy.start u) := by
  refine ⟨.refl u, ?_, ?_, ?_⟩
  · intro side i hi
    exact (hfresh side).conns_eq i hi
  · intro side i hi hmax
    have : u.conns (side, i) = 0 := (hfresh side).conns_eq i hi
    rw [Proxy.start, this]
    exact Int.natCast_nonneg _
  · intro i hi
    cases hi

/-- In every state of every run the count of a peer is the number of sessions that hold it, and within the limit of the
peer; every session has asked for a peer only without one and freed only the one it had, once; and a session that is
finalized holds none. -/
theorem proxy_accounts {conf : UpstreamConf} {u : Upstream} (hconf : ngxStreamUpstreamInitRoundRobin conf = some u)
    (proxy : ProxyConf) (events : List ProxyEvent) :
    let p := run (Proxy.step proxy) (Proxy.start u) events
    (∀ side i, i < (u.list side).number →
      ((p.upstream.list side).peer i).conns = p.holders (side, i) ∧
      (((u.list side).peer i).maxConns ≠ 0 →
        ((p.upstream.list side).peer i).conns ≤ ((u.list side).peer i).maxConns)) ∧
    ∀ i, i < p.number → Paired none (p.session i).calls ∧
      ((p.session i).call = .finalized → heldPeer (p.session i).calls = none) := by
  obtain ⟨hwf, hfresh⟩ := ngxStreamUpstreamInitRoundRobin_spec hconf
  have h := run_induction (I := Accounts u proxy) (fun _ e h => h.step hwf e) (accounts_start proxy hfresh) events
  intro p
  constructor
  · intro side i hi
    exact ⟨h.conns side i hi, h.limit side i hi⟩
  · intro i hi
    have hok := h.session i hi
    exact ⟨hok.paired, fun hdone => hok.unheld (hok.idle (.inr (.inr hdone)))⟩

/-- A proxy of datagrams without TLS that goes on to the next server after a failure. -/
def plainProxy : ProxyConf := ⟨.roundRobin, [], false, false, false, true, 0⟩

/-- The first server refuses the first session, which goes on to the second; a second session passes the failed server
over. -/
def refusedRun : List ProxyEvent :=
  [.accept, .handler 0 true [], .connect 0 ⟨0, fun _ => 0⟩ .declined, .nextUpstream 0 false false 0,
    .connect 0 ⟨0, fun _ => 0⟩ .ok, .accept, .handler 1 true [], .connect 1 ⟨0, fun _ => 0⟩ .ok]

theorem proxy_accounts_refusedRun :
    ∃ u, ngxStreamUpstreamInitRoundRobin plainServers = some u ∧
      (let p := run (Proxy.step plainProxy) (Proxy.start u) refusedRun
       p.holders (.primary, 1) = 2 ∧ ((p.upstream.list .primary).peer 1).conns = p.holders (.primary, 1)) := by
  have hconf : ngxStreamUpstreamInitRoundRobin plainServers = some _ := rfl
  exact ⟨_, hconf, by decide, ((proxy_accounts hconf plainProxy refusedRun).1 .primary 1 (by decide)).1⟩

end NginxDtls
