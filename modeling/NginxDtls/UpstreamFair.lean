import NginxDtls.UpstreamWeights

/-! Round robin is fair. While no peer fails, is down or full, every new session weighs all peers with their full
weights, so the selections are rounds with fixed shares: in any `W` selections in a row, where `W` is the sum of the
weights, every peer is taken as often as its weight says. -/

namespace NginxDtls

open Finset Credit

/-! ### Ties -/

theorem weighList_succ (skip : ℕ → RrPeer → Bool) (l : RrPeers) (k : ℕ) :
    weighList skip { l with number := k + 1 } =
      if skip k ((weighList skip { l with number := k }).peer k) then weighList skip { l with number := k }
      else (weighList skip { l with number := k }).weigh k := by
  simp only [weighList, List.range_succ, List.foldl_append]
  rfl

/-- Of the heaviest peers the loop takes the first: a later one has to be heavier. -/
theorem weighList_first {skip : ℕ → RrPeer → Bool} {l : RrPeers} {b : ℕ} (hb : (weighList skip l).best = some b) {j : ℕ}
    (hj : j < b) (hskip : skip j (l.peer j) = false) :
    (l.peer j).gain.currentWeight.toInt < (l.peer b).gain.currentWeight.toInt := by
  have hind : ∀ k b, (weighList skip { l with number := k }).best = some b → j < b →
      (l.peer j).gain.currentWeight.toInt < (l.peer b).gain.currentWeight.toInt := by
    intro k
    induction k with
    | zero =>
      intro b hb
      cases hb
    | succ k ih =>
      intro b hb hjb
      have hw := weighList_weighed skip { l with number := k }
      have hk : k ∉ ({i ∈ range k | skip i (l.peer i) = false} : Finset ℕ) := by simp
      have hsame : (weighList skip { l with number := k }).peer k = l.peer k := by rw [hw.peer_eq, if_neg hk]
      rw [weighList_succ] at hb
      split at hb
      · exact ih b hb hjb
      · by_cases hbk : b = k
        · -- the last peer is taken only when it is heavier than all before it
          subst hbk
          have hmem : j ∈ ({i ∈ range b | skip i (l.peer i) = false} : Finset ℕ) := by
            rw [mem_filter, mem_range]
            exact ⟨hjb, hskip⟩
          cases hbest : (weighList skip { l with number := b }).best with
          | none =>
            rw [hw.best_none.mp hbest] at hmem
            exact absurd hmem (notMem_empty j)
          | some c =>
            have hcE := hw.best_mem c hbest
            have hcb : c ≠ b := fun heq => hk (heq ▸ hcE)
            have hmax := hw.best_max c hbest j hmem
            simp only [Scan.weigh, hbest, Function.update_self, Function.update_of_ne hcb, hsame, hw.peer_eq c,
              if_pos hcE] at hb
            split at hb
            · rename_i hlt
              exact hmax.trans_lt (Int64.lt_iff_toInt_lt.mp hlt)
            · simp only [Option.some.injEq] at hb
              exact absurd hb hcb
        · cases hbest : (weighList skip { l with number := k }).best with
          | none =>
            simp only [Scan.weigh, hbest, Option.some.injEq] at hb
            exact absurd hb.symm hbk
          | some c =>
            simp only [Scan.weigh, hbest] at hb
            split at hb
            · simp only [Option.some.injEq] at hb
              exact absurd hb.symm hbk
            · simp only [Option.some.injEq] at hb
              exact ih b (hb ▸ hbest) hjb
  exact hind l.number b hb hj

/-- Which peer is taken depends on the weights alone. -/
theorem weighList_best_unique {skip skip' : ℕ → RrPeer → Bool} {l l' : RrPeers} (hnumber : l'.number = l.number)
    (hskip : ∀ i, i < l.number → skip i (l.peer i) = false) (hskip' : ∀ i, i < l.number → skip' i (l'.peer i) = false)
    (hgain : ∀ i, i < l.number → (l'.peer i).gain.currentWeight.toInt = (l.peer i).gain.currentWeight.toInt) {b b' : ℕ}
    (hb : (weighList skip l).best = some b) (hb' : (weighList skip' l').best = some b') : b = b' := by
  obtain ⟨hlt, -, hheavy⟩ := weighList_best hb
  obtain ⟨hlt', -, hheavy'⟩ := weighList_best hb'
  rw [hnumber] at hlt'
  obtain h | h | h := Nat.lt_trichotomy b b'
  · have hfirst := weighList_first hb' h (hskip' b hlt)
    rw [hgain b hlt, hgain b' hlt'] at hfirst
    have hmax := hheavy.max b' (mem_filter.mpr ⟨mem_range.mpr hlt', hskip b' hlt'⟩)
    exact absurd hfirst (not_lt.mpr hmax)
  · exact h
  · have hfirst := weighList_first hb h (hskip b' hlt')
    have hmax := hheavy'.max b (mem_filter.mpr ⟨mem_range.mpr (hnumber ▸ hlt), hskip' b hlt⟩)
    rw [hgain b hlt, hgain b' hlt'] at hmax
    exact absurd hfirst (not_lt.mpr hmax)

/-! ### A run of new sessions -/

/-- A selection by a new session. -/
def freshGet (now : ℤ) (u : Upstream) : Got :=
  ngxStreamUpstreamGetRoundRobinPeer now u (ngxStreamUpstreamInitRoundRobinPeer u).1

/-- A session that holds a peer of the primary list ends, without a failure. -/
def endSession (now : ℤ) (u : Upstream) (p : ℕ) : Upstream :=
  (ngxStreamUpstreamFreeRoundRobinPeer false now u ⟨.primary, some (.primary, p), []⟩ 1).1

/-- The peers before the selection `t`. Between two selections some sessions end. -/
def fairRun (u : Upstream) (now : ℕ → ℤ) (ended : ℕ → List ℕ) : ℕ → Upstream
  | 0 => u
  | t + 1 => (ended t).foldl (endSession (now t)) (freshGet (now t) (fairRun u now ended t)).2.1

/-- What the selection `t` takes. -/
def fairPick (u : Upstream) (now : ℕ → ℤ) (ended : ℕ → List ℕ) (t : ℕ) : Option (Tier × ℕ) :=
  (freshGet (now t) (fairRun u now ended t)).2.2.current

/-- Every peer has its full weight and can be selected by a new session. -/
structure Quiet (u₀ u : Upstream) : Prop where
  keeps : u₀.Keeps u
  effective : ∀ i, i < (u₀.list .primary).number →
    ((u.list .primary).peer i).effectiveWeight = Int64.ofNat ((u₀.list .primary).peer i).weight
  up : ∀ i, i < (u₀.list .primary).number → ((u.list .primary).peer i).down = false
  fails : ∀ i, i < (u₀.list .primary).number → ((u.list .primary).peer i).fails = 0

theorem Quiet.not_skipped {u₀ u : Upstream} (h : Quiet u₀ u)
    (hfull : ∀ i, i < (u₀.list .primary).number → ((u₀.list .primary).peer i).maxConns = 0) (now : ℤ) {i : ℕ}
    (hi : i < (u₀.list .primary).number) :
    skipped (ngxStreamUpstreamInitRoundRobinPeer u).1.tried now i ((u.list .primary).peer i) = false := by
  have hmax := (h.keeps.list .primary).maxConns_eq i
  rw [hfull i hi] at hmax
  simp [skipped, RrPeer.unavailable, triedBit_init, h.up i hi, h.fails i hi, hmax]

/-- A selection by a new session weighs all peers. -/
theorem Quiet.freshGet {u₀ u : Upstream} (h : Quiet u₀ u) (hwf : u₀.Wf) (hn : 2 ≤ (u₀.list .primary).number)
    (hfull : ∀ i, i < (u₀.list .primary).number → ((u₀.list .primary).peer i).maxConns = 0) (now : ℤ) :
    ∃ p, p < (u₀.list .primary).number ∧
      (weighList (skipped (ngxStreamUpstreamInitRoundRobinPeer u).1.tried now) (u.list .primary)).best = some p ∧
      Heaviest (u.list .primary) (range (u₀.list .primary).number) p ∧
      (freshGet now u).2.1 = u.modify .primary (fun l => served l (range (u₀.list .primary).number) p now) ∧
      (freshGet now u).2.2.current = some (.primary, p) := by
  have hk := h.keeps.list .primary
  have hskip := fun i hi => h.not_skipped hfull now (i := i) hi
  have hsingle : (u.list .primary).single = false := by
    by_contra hsingle
    have := ((hwf.keeps h.keeps).single .primary (by simpa using hsingle)).1
    rw [hk.number_eq] at this
    omega
  have hall : ({i ∈ range (u.list .primary).number |
      skipped (ngxStreamUpstreamInitRoundRobinPeer u).1.tried now i ((u.list .primary).peer i) = false} : Finset ℕ) =
      range (u₀.list .primary).number := by
    rw [hk.number_eq]
    exact filter_true_of_mem fun i hi => hskip i (mem_range.mp hi)
  cases hbest : (weighList (skipped (ngxStreamUpstreamInitRoundRobinPeer u).1.tried now) (u.list .primary)).best with
  | none =>
    have := weighList_none hbest (i := 0) (by rw [hk.number_eq]; omega)
    rw [hskip 0 (by omega)] at this
    cases this
  | some p =>
    obtain ⟨hlt, -, hheavy⟩ := weighList_best hbest
    obtain ⟨l', hget, hserved⟩ := ngxStreamUpstreamGetPeer_some hbest
    rw [hall] at hserved hheavy
    have hprimary : (ngxStreamUpstreamInitRoundRobinPeer u).1.peers = .primary := rfl
    have heq : NginxDtls.freshGet now u = (.ok, u.modify .primary fun _ => l'.modify p (·.connect),
        (ngxStreamUpstreamInitRoundRobinPeer u).1.took p
          (setTried (ngxStreamUpstreamInitRoundRobinPeer u).1.tried p)) := by
      rw [NginxDtls.freshGet, ngxStreamUpstreamGetRoundRobinPeer, getRoundRobinPeer]
      simp only [hprimary, hsingle, hget, Bool.false_eq_true, if_false]
    refine ⟨p, hk.number_eq ▸ hlt, rfl, hheavy, ?_, ?_⟩
    · rw [heq]
      exact Upstream.modify_congr (f := fun _ => l'.modify p (·.connect))
        (g := fun l => served l (range (u₀.list .primary).number) p now) hserved
    · rw [heq]
      rfl

theorem Quiet.modify_served {u₀ u : Upstream} (hwf : u₀.Wf) (h : Quiet u₀ u) (p : ℕ) (now : ℤ) :
    Quiet u₀ (u.modify .primary fun l => served l (range (u₀.list .primary).number) p now) := by
  have hk := h.keeps.list .primary
  refine ⟨h.keeps.trans (Upstream.keeps_modify (keeps_served _ _ p now)), ?_, ?_, ?_⟩
  · intro i hi
    simp only [Upstream.modify, Function.update_self, served_effectiveWeight, if_pos (mem_range.mpr hi)]
    have hfull : (Int64.ofNat ((u₀.list .primary).peer i).weight).toInt = ((u₀.list .primary).peer i).weight :=
      Int64.toInt_ofNat_of_lt (hwf.weight_lt .primary i hi)
    simp only [RrPeer.gain, h.effective i hi, hk.weight_eq, hfull, lt_irrefl, if_false]
  · intro i hi
    simp only [Upstream.modify, Function.update_self, served_down, h.up i hi]
  · intro i hi
    simp only [Upstream.modify, Function.update_self, served_fails, h.fails i hi]

/-- The end of a session without a failure changes no weight. -/
theorem Quiet.endSession {u₀ u : Upstream} (h : Quiet u₀ u) (now : ℤ) (p : ℕ) :
    Quiet u₀ (endSession now u p) ∧
      ∀ i, (((NginxDtls.endSession now u p).list .primary).peer i).currentWeight =
        ((u.list .primary).peer i).currentWeight := by
  have heq : NginxDtls.endSession now u p =
      u.modify .primary (·.modify p (RrPeer.freed (u.list .primary).single false now)) := by
    rw [NginxDtls.endSession, ngxStreamUpstreamFreeRoundRobinPeer_fst]
  have hfreed : ∀ peer : RrPeer, (peer.freed (u.list .primary).single false now).effectiveWeight = peer.effectiveWeight ∧
      (peer.freed (u.list .primary).single false now).down = peer.down ∧
      (peer.fails = 0 → (peer.freed (u.list .primary).single false now).fails = 0) := by
    intro peer
    obtain hl | hl := peer.live_eq <;> cases (u.list .primary).single <;> simp [RrPeer.freed, RrPeer.disconnect, hl]
  rw [heq]
  refine ⟨⟨h.keeps.trans (Upstream.keeps_modify_modify _ _ _ (RrPeer.freed_weight _ _ now)
    (RrPeer.freed_maxConns _ _ now)), ?_, ?_, ?_⟩, ?_⟩
  · intro i hi
    by_cases hip : i = p
    · subst hip
      simp [Upstream.modify, RrPeers.modify, hfreed, h.effective i hi]
    · simp [Upstream.modify, RrPeers.modify, hip, h.effective i hi]
  · intro i hi
    by_cases hip : i = p
    · subst hip
      simp [Upstream.modify, RrPeers.modify, hfreed, h.up i hi]
    · simp [Upstream.modify, RrPeers.modify, hip, h.up i hi]
  · intro i hi
    by_cases hip : i = p
    · subst hip
      simp [Upstream.modify, RrPeers.modify, (hfreed _).2.2 (h.fails i hi)]
    · simp [Upstream.modify, RrPeers.modify, hip, h.fails i hi]
  · intro i
    by_cases hip : i = p
    · subst hip
      simp [Upstream.modify, RrPeers.modify, RrPeer.freed_currentWeight]
    · simp [Upstream.modify, RrPeers.modify, hip]

theorem Quiet.endSessions {u₀ u : Upstream} (h : Quiet u₀ u) (now : ℤ) (ps : List ℕ) :
    Quiet u₀ (ps.foldl (NginxDtls.endSession now) u) ∧
      ∀ i, (((ps.foldl (NginxDtls.endSession now) u).list .primary).peer i).currentWeight =
        ((u.list .primary).peer i).currentWeight := by
  induction ps generalizing u with
  | nil => exact ⟨h, fun _ => rfl⟩
  | cons p ps ih =>
    obtain ⟨hquiet, hcurrent⟩ := h.endSession now p
    obtain ⟨hrest, hcurrent'⟩ := ih hquiet
    exact ⟨hrest, fun i => (hcurrent' i).trans (hcurrent i)⟩

theorem quiet_fairRun {u : Upstream} (hwf : u.Wf) (hfresh : (u.list .primary).Fresh)
    (hn : 2 ≤ (u.list .primary).number)
    (hup : ∀ i, i < (u.list .primary).number → ((u.list .primary).peer i).down = false)
    (hfull : ∀ i, i < (u.list .primary).number → ((u.list .primary).peer i).maxConns = 0) (now : ℕ → ℤ)
    (ended : ℕ → List ℕ) (t : ℕ) : Quiet u (fairRun u now ended t) := by
  induction t with
  | zero => exact ⟨.refl u, hfresh.effectiveWeight_eq, hup, hfresh.fails_eq⟩
  | succ t ih =>
    obtain ⟨p, -, -, -, hserved, -⟩ := ih.freshGet hwf hn hfull (now t)
    rw [fairRun, hserved]
    exact ((ih.modify_served hwf p (now t)).endSessions (now t) (ended t)).1

/-- What a selection and the ends of sessions behind it make of the current weights. -/
theorem Quiet.currentWeight_fairRun {u : Upstream} {now : ℕ → ℤ} {ended : ℕ → List ℕ} {t p : ℕ} (hwf : u.Wf)
    (h : Quiet u (fairRun u now ended t))
    (hserved : (NginxDtls.freshGet (now t) (fairRun u now ended t)).2.1 =
      (fairRun u now ended t).modify .primary (fun l => served l (range (u.list .primary).number) p (now t))) (i : ℕ) :
    (((fairRun u now ended (t + 1)).list .primary).peer i).currentWeight =
      ((served ((fairRun u now ended t).list .primary) (range (u.list .primary).number) p (now t)).peer i).currentWeight := by
  rw [fairRun, hserved, ((h.modify_served hwf p (now t)).endSessions (now t) (ended t)).2]
  simp only [Upstream.modify, Function.update_self]

/-- The selections are rounds with the weights as shares. -/
theorem rounds_fairRun {u : Upstream} (hwf : u.Wf) (hfresh : (u.list .primary).Fresh) (hfits : (u.list .primary).Fits)
    (hn : 2 ≤ (u.list .primary).number)
    (hup : ∀ i, i < (u.list .primary).number → ((u.list .primary).peer i).down = false)
    (hfull : ∀ i, i < (u.list .primary).number → ((u.list .primary).peer i).maxConns = 0) (now : ℕ → ℤ)
    (ended : ℕ → List ℕ) :
    ∃ b : ℕ → ℕ, (∀ t, fairPick u now ended t = some (.primary, b t)) ∧
      Rounds (range (u.list .primary).number) (fun i => (((u.list .primary).peer i).weight : ℤ))
        (fun t i => (((fairRun u now ended t).list .primary).peer i).currentWeight.toInt) b := by
  have hquiet := fun t => quiet_fairRun hwf hfresh hn hup hfull now ended t
  choose b hlt hbest hheavy hserved hpick using fun t => (hquiet t).freshGet hwf hn hfull (now t)
  have hnumber := fun t => ((hquiet t).keeps.list .primary).number_eq
  have hskip := fun t i hi => (hquiet t).not_skipped hfull (now t) (i := i) hi
  have heffective : ∀ t i, i < (u.list .primary).number →
      (((fairRun u now ended t).list .primary).peer i).effectiveWeight.toInt = ((u.list .primary).peer i).weight := by
    intro t i hi
    rw [(hquiet t).effective i hi, Int64.toInt_ofNat_of_lt (hwf.weight_lt .primary i hi)]
  have hbalanced : ∀ t, ((fairRun u now ended t).list .primary).Balanced := by
    intro t
    induction t with
    | zero => exact hfresh.balanced hfits
    | succ t ih =>
      have hk := (hquiet t).keeps.list .primary
      have hk' := (hquiet (t + 1)).keeps.list .primary
      have hround := (ih.served (hheavy t) (now t)).credit
      have hks := hk.trans (keeps_served _ (range (u.list .primary).number) (b t) (now t))
      refine ⟨hk'.fits hfits, ?_, ?_⟩
      · rw [hk'.number_eq, hk'.weights_eq]
        rw [hks.number_eq, hks.weights_eq] at hround
        exact Bounded.congr (fun i _ => by rw [(hquiet t).currentWeight_fairRun hwf (hserved t)]) hround
      · intro i hi
        rw [hk'.number_eq] at hi
        rw [heffective _ i hi, hk'.weight_eq]
        exact ⟨Int.natCast_nonneg _, le_rfl⟩
  have hgain : ∀ t i, i < (u.list .primary).number →
      (((fairRun u now ended t).list .primary).peer i).gain.currentWeight.toInt =
        (((fairRun u now ended t).list .primary).peer i).currentWeight.toInt + ((u.list .primary).peer i).weight := by
    intro t i hi
    rw [((hbalanced t).gain_current (by rwa [hnumber t])).2, heffective t i hi]
  refine ⟨b, hpick, ?_, ?_, ?_, ?_, ?_⟩
  · intro i hi
    rw [fairRun, hfresh.currentWeight_eq i (mem_range.mp hi), Int64.toInt_zero]
  · intro t i hi
    have hround := (hbalanced t).served_currentWeight (hheavy t) (now t) (i := i) (by rw [hnumber t]; exact mem_range.mp hi)
    rw [(hquiet t).currentWeight_fairRun hwf (hserved t), hround]
    simp only [settle, if_pos hi, heffective t i (mem_range.mp hi)]
    rw [sum_congr rfl fun j hj => heffective t j (mem_range.mp hj)]
  · intro t
    exact mem_range.mpr (hlt t)
  · intro t j hj
    have hmax := (hheavy t).max j hj
    rw [hgain t j (mem_range.mp hj), hgain t (b t) (hlt t)] at hmax
    exact hmax
  · intro s t hsame
    apply weighList_best_unique (by rw [hnumber, hnumber]) _ _ _ (hbest s) (hbest t)
    · intro i hi
      exact hskip s i (hnumber s ▸ hi)
    · intro i hi
      exact hskip t i (hnumber s ▸ hi)
    · intro i hi
      rw [hnumber s] at hi
      rw [hgain s i hi, hgain t i hi, hsame i (mem_range.mpr hi)]

/-- In any `W` selections in a row by new sessions every peer is taken as often as its weight says, and after every `W`
selections all current weights are zero again, if no sum over the list leaves its word. -/
theorem roundRobin_fair {conf : UpstreamConf} {u : Upstream} (hconf : ngxStreamUpstreamInitRoundRobin conf = some u)
    (hn : 2 ≤ (u.list .primary).number) (hfits : (u.list .primary).Fits)
    (hup : ∀ i, i < (u.list .primary).number → ((u.list .primary).peer i).down = false)
    (hfull : ∀ i, i < (u.list .primary).number → ((u.list .primary).peer i).maxConns = 0) (now : ℕ → ℤ)
    (ended : ℕ → List ℕ) :
    let n := (u.list .primary).number
    let weight := fun i => ((u.list .primary).peer i).weight
    let W := ∑ i ∈ range n, weight i
    (∀ t, ∃ i, i < n ∧ fairPick u now ended t = some (.primary, i)) ∧
      (∀ s i, i < n → #{t ∈ Ico s (s + W) | fairPick u now ended t = some (.primary, i)} = weight i) ∧
        ∀ k i, i < n → (((fairRun u now ended (k * W)).list .primary).peer i).currentWeight = 0 := by
  obtain ⟨hwf, hfresh⟩ := ngxStreamUpstreamInitRoundRobin_spec hconf
  obtain ⟨b, hpick, hrounds⟩ := rounds_fairRun hwf (hfresh .primary) hfits hn hup hfull now ended
  have hpos : ∀ i ∈ range (u.list .primary).number, (0 : ℤ) < ((u.list .primary).peer i).weight := by
    intro i hi
    exact_mod_cast hwf.weight_pos .primary i (mem_range.mp hi)
  intro n weight W
  have hW : (W : ℤ) = ∑ i ∈ range n, (weight i : ℤ) := Nat.cast_sum _ _
  refine ⟨?_, ?_, ?_⟩
  · intro t
    exact ⟨b t, mem_range.mp (hrounds.mem t), hpick t⟩
  · intro s i hi
    have hwindow := hrounds.count_window hpos hW s (mem_range.mpr hi)
    simp only [hpick, Option.some.injEq, Prod.mk.injEq, true_and]
    exact_mod_cast hwindow
  · intro k i hi
    exact Int64.toInt_inj.mp (hrounds.credit_mul_period hpos hW k (mem_range.mpr hi))

/-- Two servers of weights two and one: three selections in a row take the first of them twice. -/
theorem roundRobin_fair_plainServers :
    ∃ u, ngxStreamUpstreamInitRoundRobin plainServers = some u ∧
      #{t ∈ Ico 1 4 | fairPick u (fun t => t) (fun _ => []) t = some (.primary, 0)} = 2 := by
  have hconf : ngxStreamUpstreamInitRoundRobin plainServers = some _ := rfl
  exact ⟨_, hconf, (roundRobin_fair hconf (by decide) (by unfold RrPeers.Fits; decide) (by decide) (by decide) (fun t => t)
    fun _ => []).2.1 1 0 (by decide)⟩

/-! ### Weights that wrap -/

/-- With equal weights that add up to the word the total is zero: the current weights stay equal, and all selections take
the first peer. -/
theorem fairPick_of_total_eq_zero {u : Upstream} (hwf : u.Wf) (hfresh : (u.list .primary).Fresh)
    (hn : 2 ≤ (u.list .primary).number)
    (hup : ∀ i, i < (u.list .primary).number → ((u.list .primary).peer i).down = false)
    (hfull : ∀ i, i < (u.list .primary).number → ((u.list .primary).peer i).maxConns = 0) {w : ℕ}
    (hweight : ∀ i, i < (u.list .primary).number → ((u.list .primary).peer i).weight = w)
    (htotal : (u.list .primary).number * w = 2 ^ 64) (now : ℕ → ℤ) (ended : ℕ → List ℕ) (t : ℕ) :
    fairPick u now ended t = some (.primary, 0) := by
  have hquiet := fun t => quiet_fairRun hwf hfresh hn hup hfull now ended t
  choose b hlt hbest hheavy hserved hpick using fun t => (hquiet t).freshGet hwf hn hfull (now t)
  have heffective : ∀ t i, i < (u.list .primary).number →
      (((fairRun u now ended t).list .primary).peer i).effectiveWeight = Int64.ofNat w := by
    intro t i hi
    rw [(hquiet t).effective i hi, hweight i hi]
  have hfirst : ∀ t, (∀ i, i < (u.list .primary).number →
      (((fairRun u now ended t).list .primary).peer i).currentWeight =
        (((fairRun u now ended t).list .primary).peer 0).currentWeight) → b t = 0 := by
    intro t hlevel
    by_contra hne
    have hless := weighList_first (hbest t) (Nat.pos_of_ne_zero hne)
      ((hquiet t).not_skipped hfull (now t) (i := 0) (by omega))
    simp only [RrPeer.gain, heffective t 0 (by omega), heffective t (b t) (hlt t), hlevel (b t) (hlt t), lt_irrefl] at hless
  have hzero : ∀ t, effectiveTotal ((fairRun u now ended t).list .primary).peer (range (u.list .primary).number) = 0 := by
    intro t
    have hlow : w < 2 ^ 63 := hweight 0 (by omega) ▸ hwf.weight_lt .primary 0 (by omega)
    rw [effectiveTotal, sum_congr rfl fun j hj => by
      rw [heffective t j (mem_range.mp hj), Int64.toInt_ofNat_of_lt hlow]]
    rw [sum_const, card_range, nsmul_eq_mul, ← Nat.cast_mul, htotal]
    rfl
  have hlevel : ∀ t i, i < (u.list .primary).number →
      (((fairRun u now ended t).list .primary).peer i).currentWeight =
        (((fairRun u now ended t).list .primary).peer 0).currentWeight := by
    intro t
    induction t with
    | zero =>
      intro i hi
      rw [fairRun, hfresh.currentWeight_eq i hi, hfresh.currentWeight_eq 0 (by omega)]
    | succ t ih =>
      intro i hi
      have hnext : ∀ j, j < (u.list .primary).number → (((fairRun u now ended (t + 1)).list .primary).peer j).currentWeight =
          (((fairRun u now ended t).list .primary).peer 0).currentWeight + Int64.ofNat w := by
        intro j hj
        rw [(hquiet t).currentWeight_fairRun hwf (hserved t), served_currentWeight, if_pos (mem_range.mpr hj), hzero t,
          ite_self, Int64.sub_zero, RrPeer.gain, ih j hj, heffective t j hj]
      rw [hnext i hi, hnext 0 (by omega)]
  have hfirst := hfirst t (hlevel t)
  rw [← hfirst]
  exact hpick t

/-- Four servers whose weights add up to the word. -/
def heavyServers : UpstreamConf := .servers [heavyServer 97, heavyServer 98, heavyServer 99, heavyServer 100]

/-- None of the first selections takes the second server, whose weight is not zero. -/
theorem heavyServers_unfair :
    ∃ u, ngxStreamUpstreamInitRoundRobin heavyServers = some u ∧ (u.list .primary).number = 4 ∧
      (∀ i, i < 4 → ((u.list .primary).peer i).down = false ∧ ((u.list .primary).peer i).maxConns = 0) ∧
      #{t ∈ Ico 0 (∑ i ∈ range 4, ((u.list .primary).peer i).weight) |
        fairPick u (fun _ => 0) (fun _ => []) t = some (.primary, 1)} ≠ ((u.list .primary).peer 1).weight := by
  have hconf : ngxStreamUpstreamInitRoundRobin heavyServers = some _ := rfl
  obtain ⟨hwf, hfresh⟩ := ngxStreamUpstreamInitRoundRobin_spec hconf
  refine ⟨_, hconf, rfl, by decide, ?_⟩
  have hnone := fairPick_of_total_eq_zero hwf (hfresh .primary) (w := 2 ^ 62) (by decide) (by decide) (by decide) (by decide)
    (by decide) (fun _ => 0) fun _ => []
  rw [filter_false_of_mem, card_empty]
  · decide
  · intro t _ hpick
    rw [hnone t] at hpick
    cases hpick

end NginxDtls
