import NginxDtls.UpstreamSelect
import NginxDtls.Run

/-! The weights of the peers over whole runs. Selections by any method and frees keep what the configuration made of the
peers, and the credits of the peers stay balanced and bounded: a selection is a round in which the peer that is taken
pays for all that were weighed. -/

namespace NginxDtls

open Finset Credit Run

/-! ### What is never changed -/

/-- The peers of a list change, but not what the configuration made of them. -/
structure RrPeers.Keeps (l l' : RrPeers) : Prop where
  number_eq : l'.number = l.number
  totalWeight_eq : l'.totalWeight = l.totalWeight
  tries_eq : l'.tries = l.tries
  single_eq : l'.single = l.single
  weight_eq : ∀ i, (l'.peer i).weight = (l.peer i).weight
  maxConns_eq : ∀ i, (l'.peer i).maxConns = (l.peer i).maxConns

structure Upstream.Keeps (u u' : Upstream) : Prop where
  list : ∀ side, (u.list side).Keeps (u'.list side)
  next_eq : u'.next = u.next

theorem RrPeers.Keeps.refl (l : RrPeers) : l.Keeps l := ⟨rfl, rfl, rfl, rfl, fun _ => rfl, fun _ => rfl⟩

theorem RrPeers.Keeps.trans {l l' l'' : RrPeers} (h : l.Keeps l') (h' : l'.Keeps l'') : l.Keeps l'' where
  number_eq := h'.number_eq.trans h.number_eq
  totalWeight_eq := h'.totalWeight_eq.trans h.totalWeight_eq
  tries_eq := h'.tries_eq.trans h.tries_eq
  single_eq := h'.single_eq.trans h.single_eq
  weight_eq := fun i => (h'.weight_eq i).trans (h.weight_eq i)
  maxConns_eq := fun i => (h'.maxConns_eq i).trans (h.maxConns_eq i)

theorem Upstream.Keeps.refl (u : Upstream) : u.Keeps u := ⟨fun side => .refl (u.list side), rfl⟩

theorem Upstream.Keeps.trans {u u' u'' : Upstream} (h : u.Keeps u') (h' : u'.Keeps u'') : u.Keeps u'' where
  list := fun side => (h.list side).trans (h'.list side)
  next_eq := h'.next_eq.trans h.next_eq

theorem Upstream.Wf.keeps {u u' : Upstream} (h : u.Wf) (hk : u.Keeps u') : u'.Wf where
  weight_pos := by
    intro side i hi
    rw [(hk.list side).weight_eq]
    exact h.weight_pos side i ((hk.list side).number_eq ▸ hi)
  weight_lt := by
    intro side i hi
    rw [(hk.list side).weight_eq]
    exact h.weight_lt side i ((hk.list side).number_eq ▸ hi)
  totalWeight_eq := by
    intro side
    rw [(hk.list side).totalWeight_eq, (hk.list side).number_eq, h.totalWeight_eq]
    exact sum_congr rfl fun i _ => ((hk.list side).weight_eq i).symm
  primary_pos := by
    rw [(hk.list .primary).number_eq]
    exact h.primary_pos
  backup_pos := by
    rw [(hk.list .backup).number_eq, hk.next_eq]
    exact h.backup_pos
  backup_none := by
    rw [(hk.list .backup).number_eq, hk.next_eq]
    exact h.backup_none
  single := by
    intro side
    rw [(hk.list side).number_eq, (hk.list side).single_eq, hk.next_eq]
    exact h.single side

theorem Upstream.keeps_modify {u : Upstream} {side : Tier} {f : RrPeers → RrPeers}
    (h : (u.list side).Keeps (f (u.list side))) : u.Keeps (u.modify side f) := by
  refine ⟨fun side' => ?_, rfl⟩
  rw [Upstream.modify]
  by_cases hside : side' = side
  · subst hside
    simp only [Function.update_self]
    exact h
  · simp only [Function.update_of_ne hside]
    exact .refl _

theorem RrPeers.keeps_modify (l : RrPeers) (p : ℕ) {f : RrPeer → RrPeer} (hweight : ∀ peer, (f peer).weight = peer.weight)
    (hmax : ∀ peer, (f peer).maxConns = peer.maxConns) : l.Keeps (l.modify p f) := by
  refine ⟨rfl, rfl, rfl, rfl, fun i => ?_, fun i => ?_⟩
  · by_cases hi : i = p
    · subst hi
      simp [RrPeers.modify, hweight]
    · simp [RrPeers.modify, hi]
  · by_cases hi : i = p
    · subst hi
      simp [RrPeers.modify, hmax]
    · simp [RrPeers.modify, hi]

theorem Upstream.keeps_modify_modify (u : Upstream) (side : Tier) (p : ℕ) {f : RrPeer → RrPeer}
    (hweight : ∀ peer, (f peer).weight = peer.weight) (hmax : ∀ peer, (f peer).maxConns = peer.maxConns) :
    u.Keeps (u.modify side (·.modify p f)) :=
  Upstream.keeps_modify (f := fun l => l.modify p f) (RrPeers.keeps_modify _ p hweight hmax)

/-! ### What a selection changes -/

section Check

variable (peer : RrPeer) (now : ℤ)

@[simp]
theorem RrPeer.check_currentWeight : (peer.check now).currentWeight = peer.currentWeight := by
  rw [RrPeer.check]
  split <;> rfl

@[simp]
theorem RrPeer.check_effectiveWeight : (peer.check now).effectiveWeight = peer.effectiveWeight := by
  rw [RrPeer.check]
  split <;> rfl

@[simp]
theorem RrPeer.check_weight : (peer.check now).weight = peer.weight := by
  rw [RrPeer.check]
  split <;> rfl

@[simp]
theorem RrPeer.check_maxConns : (peer.check now).maxConns = peer.maxConns := by
  rw [RrPeer.check]
  split <;> rfl

@[simp]
theorem RrPeer.check_down : (peer.check now).down = peer.down := by
  rw [RrPeer.check]
  split <;> rfl

@[simp]
theorem RrPeer.check_fails : (peer.check now).fails = peer.fails := by
  rw [RrPeer.check]
  split <;> rfl

end Check

section Served

variable (l : RrPeers) (E : Finset ℕ) (p : ℕ) (now : ℤ)

theorem keeps_served : l.Keeps (served l E p now) := by
  refine ⟨rfl, rfl, rfl, rfl, fun i => ?_, fun i => ?_⟩ <;> simp only [served] <;> split <;> split <;>
    simp [RrPeer.connect, RrPeer.pay, RrPeer.gain]

theorem served_currentWeight (i : ℕ) : ((served l E p now).peer i).currentWeight =
    (if i ∈ E then (l.peer i).gain.currentWeight else (l.peer i).currentWeight) -
      if i = p then effectiveTotal l.peer E else 0 := by
  simp only [served]
  split <;> split <;> simp [RrPeer.connect, RrPeer.pay]

theorem served_effectiveWeight (i : ℕ) : ((served l E p now).peer i).effectiveWeight =
    if i ∈ E then (l.peer i).gain.effectiveWeight else (l.peer i).effectiveWeight := by
  simp only [served]
  split <;> split <;> simp [RrPeer.connect, RrPeer.pay]

theorem served_down (i : ℕ) : ((served l E p now).peer i).down = (l.peer i).down := by
  simp only [served]
  split <;> split <;> simp [RrPeer.connect, RrPeer.pay, RrPeer.gain]

theorem served_fails (i : ℕ) : ((served l E p now).peer i).fails = (l.peer i).fails := by
  simp only [served]
  split <;> split <;> simp [RrPeer.connect, RrPeer.pay, RrPeer.gain]

end Served

/-- A peer is taken without weighing, or is the heaviest of those that were weighed. -/
theorem Takes.cases_list {now : ℤ} {u u' : Upstream} {rrp rrp' : RrPeerData} {p : ℕ} (h : Takes now u rrp p u' rrp') :
    ∃ f, u' = u.modify rrp.peers f ∧
      (f (u.list rrp.peers) = (u.list rrp.peers).modify p (·.connect) ∨
        ∃ E, Heaviest (u.list rrp.peers) E p ∧ f (u.list rrp.peers) = served (u.list rrp.peers) E p now) := by
  obtain ⟨-, -, heq⟩ | ⟨-, -, -, E, hE, heq⟩ := h.effect
  · exact ⟨_, heq, .inl rfl⟩
  · exact ⟨_, heq, .inr ⟨E, hE, rfl⟩⟩

theorem Takes.keeps {now : ℤ} {u u' : Upstream} {rrp rrp' : RrPeerData} {p : ℕ} (h : Takes now u rrp p u' rrp') :
    u.Keeps u' := by
  obtain ⟨f, rfl, hf | ⟨E, -, hf⟩⟩ := h.cases_list
  · refine Upstream.keeps_modify ?_
    rw [hf]
    exact @RrPeers.keeps_modify _ p RrPeer.connect (fun _ => rfl) fun _ => rfl
  · refine Upstream.keeps_modify ?_
    rw [hf]
    exact keeps_served _ E p now

theorem Selects.keeps {now : ℤ} {u : Upstream} {rrp : RrPeerData} {got : Got} (h : Selects now u rrp got) :
    u.Keeps got.2.1 := by
  cases h with
  | took h => exact h.keeps
  | tookBackup hside hnext hnone h => exact h.keeps
  | busy => exact .refl u
  | busyBackup hside hnext hnone => exact .refl u

/-! ### What a free changes -/

/-- A value between the bounds of an `ngx_int_t` is what its word says. -/
theorem bmod_word {x : ℤ} (hlow : -2 ^ 63 ≤ x) (hhigh : x < 2 ^ 63) : x.bmod (2 ^ 64) = x :=
  Int.bmod_eq_of_le_mul_two (by push_cast; omega) (by push_cast; omega)

/-- What a free makes of the peer, by whether the session's list has a single peer. -/
def RrPeer.freed (single failed : Bool) (now : ℤ) (peer : RrPeer) : RrPeer :=
  if single then peer.disconnect else (if failed then peer.fail now else peer.live).disconnect

theorem RrPeer.live_eq (peer : RrPeer) : peer.live = peer ∨ peer.live = { peer with fails := 0 } := by
  rw [RrPeer.live]
  split
  · exact .inr rfl
  · exact .inl rfl

theorem ngxStreamUpstreamFreeRoundRobinPeer_fst (failed : Bool) (now : ℤ) (u : Upstream) (rrp : RrPeerData) (tries : ℕ) :
    (ngxStreamUpstreamFreeRoundRobinPeer failed now u rrp tries).1 =
      match rrp.current with
      | none => u
      | some held => u.modify held.1 (·.modify held.2 (RrPeer.freed (u.list rrp.peers).single failed now)) := by
  rw [ngxStreamUpstreamFreeRoundRobinPeer]
  cases rrp.current with
  | none => rfl
  | some held =>
    dsimp only
    cases (u.list rrp.peers).single <;> rfl

section Freed

variable (single failed : Bool) (now : ℤ) (peer : RrPeer)

theorem RrPeer.freed_weight : (peer.freed single failed now).weight = peer.weight := by
  obtain h | h := peer.live_eq <;> cases single <;> cases failed <;> simp [freed, disconnect, fail, h]

theorem RrPeer.freed_maxConns : (peer.freed single failed now).maxConns = peer.maxConns := by
  obtain h | h := peer.live_eq <;> cases single <;> cases failed <;> simp [freed, disconnect, fail, h]

theorem RrPeer.freed_currentWeight : (peer.freed single failed now).currentWeight = peer.currentWeight := by
  obtain h | h := peer.live_eq <;> cases single <;> cases failed <;> simp [freed, disconnect, fail, h]

theorem RrPeer.fail_effectiveWeight (hweight : peer.weight < 2 ^ 63) (h : 0 ≤ peer.effectiveWeight.toInt) :
    0 ≤ (peer.fail now).effectiveWeight.toInt ∧ (peer.fail now).effectiveWeight.toInt ≤ peer.effectiveWeight.toInt := by
  -- the part that is taken away is an `ngx_int_t`, and so is what is left
  have hpart : peer.weight / peer.maxFails < 2 ^ 63 := (Nat.div_le_self _ _).trans_lt hweight
  have hlt := peer.effectiveWeight.toInt_lt
  have hnonneg : (0 : ℤ) ≤ ((peer.weight / peer.maxFails : ℕ) : ℤ) := Int.natCast_nonneg _
  have hbound : ((peer.weight / peer.maxFails : ℕ) : ℤ) < 2 ^ 63 := by exact_mod_cast hpart
  have hleft : (peer.effectiveWeight - Int64.ofNat (peer.weight / peer.maxFails)).toInt =
      peer.effectiveWeight.toInt - ((peer.weight / peer.maxFails : ℕ) : ℤ) := by
    rw [Int64.toInt_sub, Int64.toInt_ofNat_of_lt hpart]
    exact bmod_word (by linarith) (by linarith)
  simp only [RrPeer.fail, Int64.lt_iff_toInt_lt]
  split <;> split
  · exact ⟨le_rfl, h⟩
  · rename_i hnot
    rw [Int64.toInt_zero, not_lt] at hnot
    rw [hleft] at hnot ⊢
    exact ⟨hnot, by linarith⟩
  · exact ⟨le_rfl, h⟩
  · exact ⟨h, le_rfl⟩

/-- After a failure the effective weight is lower, but not below zero. -/
theorem RrPeer.freed_effectiveWeight (hweight : peer.weight < 2 ^ 63) (h : 0 ≤ peer.effectiveWeight.toInt) :
    0 ≤ (peer.freed single failed now).effectiveWeight.toInt ∧
      (peer.freed single failed now).effectiveWeight.toInt ≤ peer.effectiveWeight.toInt := by
  have hlive : peer.live.effectiveWeight = peer.effectiveWeight := by
    obtain hlive | hlive := peer.live_eq <;> rw [hlive]
  cases single with
  | true => exact ⟨h, le_rfl⟩
  | false =>
    cases failed with
    | true => exact peer.fail_effectiveWeight now hweight h
    | false =>
      change 0 ≤ peer.live.effectiveWeight.toInt ∧ peer.live.effectiveWeight.toInt ≤ peer.effectiveWeight.toInt
      rw [hlive]
      exact ⟨h, le_rfl⟩

end Freed

theorem ngxStreamUpstreamFreeRoundRobinPeer_keeps (failed : Bool) (now : ℤ) (u : Upstream) (rrp : RrPeerData) (tries : ℕ) :
    u.Keeps (ngxStreamUpstreamFreeRoundRobinPeer failed now u rrp tries).1 := by
  rw [ngxStreamUpstreamFreeRoundRobinPeer_fst]
  cases rrp.current with
  | none => exact .refl u
  | some held => exact Upstream.keeps_modify_modify _ _ _ (RrPeer.freed_weight _ _ now) (RrPeer.freed_maxConns _ _ now)

theorem ngxStreamUpstreamNotifyRoundRobinPeer_keeps (u : Upstream) (rrp : RrPeerData) :
    u.Keeps (ngxStreamUpstreamNotifyRoundRobinPeer u rrp) := by
  rw [ngxStreamUpstreamNotifyRoundRobinPeer]
  cases rrp.current with
  | none => exact .refl u
  | some held =>
    refine Upstream.keeps_modify_modify _ _ _ (fun peer => ?_) fun peer => ?_
    · obtain h | h := peer.live_eq <;> rw [h]
    · obtain h | h := peer.live_eq <;> rw [h]

/-! ### Balanced weights -/

/-- The sum of the weights of a list. -/
def RrPeers.weights (l : RrPeers) : ℤ := ∑ i ∈ range l.number, ((l.peer i).weight : ℤ)

/-- No sum over the list leaves `ngx_int_t`. -/
def RrPeers.Fits (l : RrPeers) : Prop :=
  ∀ i, i < l.number → ((l.number : ℤ) - 1) * l.weights + (l.peer i).weight < 2 ^ 63

/-- The current weights are credits that do not run away, and an effective weight is between zero and the weight. -/
structure RrPeers.Balanced (l : RrPeers) : Prop where
  fits : l.Fits
  credit : Bounded (range l.number) l.weights fun i => (l.peer i).currentWeight.toInt
  effective : ∀ i, i < l.number →
    0 ≤ (l.peer i).effectiveWeight.toInt ∧ (l.peer i).effectiveWeight.toInt ≤ (l.peer i).weight

theorem RrPeers.Keeps.weights_eq {l l' : RrPeers} (h : l.Keeps l') : l'.weights = l.weights := by
  rw [RrPeers.weights, h.number_eq, RrPeers.weights]
  exact sum_congr rfl fun i _ => by rw [h.weight_eq]

theorem RrPeers.Keeps.fits {l l' : RrPeers} (h : l.Keeps l') (hfits : l.Fits) : l'.Fits := by
  intro i hi
  rw [h.number_eq] at hi ⊢
  rw [h.weights_eq, h.weight_eq]
  exact hfits i hi

theorem RrPeers.Fits.weight_lt {l : RrPeers} (h : l.Fits) {i : ℕ} (hi : i < l.number) : (l.peer i).weight < 2 ^ 63 := by
  have hsum := h i hi
  have hweights : 0 ≤ ((l.number : ℤ) - 1) * l.weights :=
    mul_nonneg (by omega) (sum_nonneg fun _ _ => Int.natCast_nonneg _)
  omega

theorem RrPeers.Balanced.gain_effective {l : RrPeers} (h : l.Balanced) {i : ℕ} (hi : i < l.number) :
    0 ≤ (l.peer i).gain.effectiveWeight.toInt ∧ (l.peer i).gain.effectiveWeight.toInt ≤ (l.peer i).weight := by
  obtain ⟨hpos, hle⟩ := h.effective i hi
  have hlow := (l.peer i).effectiveWeight.le_toInt
  simp only [RrPeer.gain]
  split
  · rename_i hless
    have hlt := h.fits.weight_lt hi
    rw [Int64.toInt_add, Int64.toInt_one, bmod_word (by omega) (by omega)]
    omega
  · exact ⟨hpos, hle⟩

/-- The sum that the loop compares does not wrap. -/
theorem RrPeers.Balanced.gain_current {l : RrPeers} (h : l.Balanced) {i : ℕ} (hi : i < l.number) :
    (l.peer i).currentWeight.toInt + (l.peer i).effectiveWeight.toInt < 2 ^ 63 ∧
      (l.peer i).gain.currentWeight.toInt = (l.peer i).currentWeight.toInt + (l.peer i).effectiveWeight.toInt := by
  obtain ⟨hpos, hle⟩ := h.effective i hi
  have habs := h.credit.abs_credit_le (mem_range.mpr hi)
  rw [card_range] at habs
  have hbounds := abs_le.mp habs
  have hsum := h.fits i hi
  have hhigh : (l.peer i).currentWeight.toInt + (l.peer i).effectiveWeight.toInt < 2 ^ 63 := by linarith
  have hlow := (l.peer i).currentWeight.le_toInt
  refine ⟨hhigh, ?_⟩
  rw [RrPeer.gain, Int64.toInt_add, bmod_word (by omega) hhigh]

/-- A selection is a round of credits. -/
theorem RrPeers.Balanced.settle {l : RrPeers} (h : l.Balanced) {E : Finset ℕ} {p : ℕ} (hE : Heaviest l E p)
    (hempty : E.Nonempty) :
    Bounded (range l.number) l.weights
      (settle (fun i => (l.peer i).currentWeight.toInt) (fun i => (l.peer i).effectiveWeight.toInt) E p) := by
  refine h.credit.settle ?_ (hE.mem hempty) ?_ ?_ ?_
  · exact fun i hi => mem_range.mpr (hE.lt i hi)
  · exact fun i hi => (h.effective i (mem_range.mp hi)).1
  · exact sum_le_sum fun i hi => (h.effective i (mem_range.mp hi)).2
  · intro j hj
    have hmax := hE.max j hj
    rw [(h.gain_current (hE.lt j hj)).2, (h.gain_current (hE.lt p (hE.mem hempty))).2] at hmax
    exact hmax

theorem RrPeers.Balanced.served_currentWeight {l : RrPeers} (h : l.Balanced) {E : Finset ℕ} {p : ℕ} (hE : Heaviest l E p)
    (now : ℤ) {i : ℕ} (hi : i < l.number) :
    ((served l E p now).peer i).currentWeight.toInt =
      Credit.settle (fun i => (l.peer i).currentWeight.toInt) (fun i => (l.peer i).effectiveWeight.toInt) E p i := by
  rw [NginxDtls.served_currentWeight]
  by_cases hempty : E.Nonempty
  · have hp := hE.mem hempty
    -- what is left after the payment is a credit, so it does not wrap
    have habs := (h.settle hE hempty).abs_credit_le (mem_range.mpr hi)
    rw [card_range] at habs
    have hbounds := abs_le.mp habs
    have hsum := h.fits i hi
    have hweight : (0 : ℤ) ≤ (l.peer i).weight := Int.natCast_nonneg _
    by_cases hip : i = p
    · subst hip
      simp only [Credit.settle, if_pos hp, if_true] at hbounds ⊢
      have hsize : Int64.size = 2 ^ 64 := rfl
      rw [Int64.toInt_sub, (h.gain_current hi).2, effectiveTotal, Int64.toInt_ofInt, hsize, Int.sub_bmod_bmod]
      exact bmod_word (by linarith) (by linarith)
    · rw [if_neg hip, Int64.sub_zero, Credit.settle, if_neg hip, sub_zero]
      split
      · exact (h.gain_current hi).2
      · rw [add_zero]
  · rw [not_nonempty_iff_eq_empty] at hempty
    subst hempty
    simp [Credit.settle]

theorem RrPeers.Balanced.served {l : RrPeers} (h : l.Balanced) {E : Finset ℕ} {p : ℕ} (hE : Heaviest l E p) (now : ℤ) :
    (served l E p now).Balanced := by
  have hk := keeps_served l E p now
  refine ⟨hk.fits h.fits, ?_, ?_⟩
  · rw [hk.number_eq, hk.weights_eq]
    refine Bounded.congr (fun i hi => (h.served_currentWeight hE now (mem_range.mp hi)).symm) ?_
    by_cases hempty : E.Nonempty
    · exact h.settle hE hempty
    · rw [not_nonempty_iff_eq_empty] at hempty
      subst hempty
      refine Bounded.congr (fun i _ => ?_) h.credit
      simp [Credit.settle]
  · intro i hi
    rw [hk.number_eq] at hi
    rw [served_effectiveWeight, hk.weight_eq]
    split
    · exact h.gain_effective hi
    · exact h.effective i hi

/-- A change of one peer that leaves its credit, and its effective weight in its bounds. -/
theorem RrPeers.Balanced.modify {l : RrPeers} (h : l.Balanced) (p : ℕ) {f : RrPeer → RrPeer} (hk : l.Keeps (l.modify p f))
    (hcurrent : ∀ peer, (f peer).currentWeight = peer.currentWeight)
    (heffective : ∀ peer : RrPeer, peer.weight < 2 ^ 63 → 0 ≤ peer.effectiveWeight.toInt →
      0 ≤ (f peer).effectiveWeight.toInt ∧ (f peer).effectiveWeight.toInt ≤ peer.effectiveWeight.toInt) :
    (l.modify p f).Balanced := by
  have hpeer : ∀ i, (l.modify p f).peer i = if i = p then f (l.peer i) else l.peer i := by
    intro i
    by_cases hi : i = p
    · subst hi
      simp [RrPeers.modify]
    · simp [RrPeers.modify, hi]
  refine ⟨hk.fits h.fits, ?_, ?_⟩
  · rw [hk.number_eq, hk.weights_eq]
    refine Bounded.congr (fun i _ => ?_) h.credit
    rw [hpeer]
    split
    · rw [hcurrent]
    · rfl
  · intro i hi
    obtain ⟨hpos, hle⟩ := h.effective i hi
    rw [hk.weight_eq, hpeer]
    split
    · obtain ⟨hpos', hle'⟩ := heffective (l.peer i) (h.fits.weight_lt hi) hpos
      exact ⟨hpos', hle'.trans hle⟩
    · exact ⟨hpos, hle⟩

theorem Upstream.balanced_modify {u : Upstream} {side side' : Tier} {f : RrPeers → RrPeers}
    (h : (u.list side').Balanced) (hf : side' = side → (f (u.list side)).Balanced) :
    ((u.modify side f).list side').Balanced := by
  rw [Upstream.modify]
  by_cases hside : side' = side
  · subst hside
    simp only [Function.update_self]
    exact hf rfl
  · simp only [Function.update_of_ne hside]
    exact h

theorem Takes.balanced {now : ℤ} {u u' : Upstream} {rrp rrp' : RrPeerData} {p : ℕ} (h : Takes now u rrp p u' rrp')
    {side : Tier} (hu : (u.list side).Balanced) : (u'.list side).Balanced := by
  obtain ⟨f, rfl, hf | ⟨E, hE, hf⟩⟩ := h.cases_list
  · refine Upstream.balanced_modify hu fun hside => ?_
    subst hside
    rw [hf]
    exact hu.modify p (@RrPeers.keeps_modify _ p RrPeer.connect (fun _ => rfl) fun _ => rfl) (fun _ => rfl)
      fun _ _ hpos => ⟨hpos, le_rfl⟩
  · refine Upstream.balanced_modify hu fun hside => ?_
    subst hside
    rw [hf]
    exact hu.served hE now

theorem Selects.balanced {now : ℤ} {u : Upstream} {rrp : RrPeerData} {got : Got} (h : Selects now u rrp got)
    {side : Tier} (hu : (u.list side).Balanced) : (got.2.1.list side).Balanced := by
  cases h with
  | took h => exact h.balanced hu
  | tookBackup hside hnext hnone h => exact h.balanced hu
  | busy => exact hu
  | busyBackup hside hnext hnone => exact hu

/-! ### The peers of a configuration -/

/-- What holds of a list before the first session. -/
structure RrPeers.Fresh (l : RrPeers) : Prop where
  currentWeight_eq : ∀ i, i < l.number → (l.peer i).currentWeight = 0
  effectiveWeight_eq : ∀ i, i < l.number → (l.peer i).effectiveWeight = Int64.ofNat (l.peer i).weight
  conns_eq : ∀ i, i < l.number → (l.peer i).conns = 0
  fails_eq : ∀ i, i < l.number → (l.peer i).fails = 0
  tries_eq : l.tries = #{i ∈ range l.number | (l.peer i).down = false}

theorem RrPeers.Fresh.balanced {l : RrPeers} (h : l.Fresh) (hfits : l.Fits) : l.Balanced := by
  refine ⟨hfits, ?_, ?_⟩
  · refine Bounded.congr (fun i hi => ?_) (bounded_zero (range l.number) (sum_nonneg fun _ _ => Int.natCast_nonneg _))
    rw [h.currentWeight_eq i (mem_range.mp hi), Int64.toInt_zero]
  · intro i hi
    rw [h.effectiveWeight_eq i hi, Int64.toInt_ofNat_of_lt (hfits.weight_lt hi)]
    exact ⟨Int.natCast_nonneg _, le_rfl⟩

/-- The peers of some servers, in the order of the list. -/
def rrPeerList (servers : List StreamUpstreamServer) : List RrPeer :=
  servers.flatMap fun s => List.replicate s.naddrs (rrPeerOf s)

theorem rrPeersOf_number (servers : List StreamUpstreamServer) (single : Bool) :
    (rrPeersOf servers single).number = (rrPeerList servers).length := by
  rw [rrPeersOf, rrPeerList, List.length_flatMap]
  simp only [List.length_replicate]

theorem rrPeersOf_peer (servers : List StreamUpstreamServer) (single : Bool) (i : ℕ) :
    (rrPeersOf servers single).peer i = (rrPeerList servers).getD i default := rfl

/-- What holds of every peer of a server holds of the peers of the list. -/
theorem forall_rrPeersOf {P : RrPeer → Prop} {servers : List StreamUpstreamServer} (h : ∀ s ∈ servers, P (rrPeerOf s))
    (single : Bool) (i : ℕ) (hi : i < (rrPeersOf servers single).number) : P ((rrPeersOf servers single).peer i) := by
  rw [rrPeersOf_number] at hi
  rw [rrPeersOf_peer, List.getD_eq_getElem _ _ hi]
  obtain ⟨s, hs, hpeer⟩ := List.mem_flatMap.mp (List.getElem_mem hi)
  rw [(List.mem_replicate.mp hpeer).2]
  exact h s hs

/-- A sum over the peers of a list is one over the list. -/
theorem sum_range_getD {α : Type} (d : α) (f : α → ℕ) (peers : List α) :
    ∑ i ∈ range peers.length, f (peers.getD i d) = (peers.map f).sum := by
  rw [Finset.sum_range, ← List.sum_ofFn]
  congr 1
  exact List.ext_getElem (by simp) fun i hi hi' => by simp

theorem sum_map_rrPeerList (f : RrPeer → ℕ) (servers : List StreamUpstreamServer) :
    ((rrPeerList servers).map f).sum = (servers.map fun s => s.naddrs * f (rrPeerOf s)).sum := by
  induction servers with
  | nil => rfl
  | cons s servers ih =>
    change ((List.replicate s.naddrs (rrPeerOf s) ++ rrPeerList servers).map f).sum = _
    rw [List.map_append, List.sum_append, ih, List.map_replicate, List.sum_replicate, smul_eq_mul, List.map_cons,
      List.sum_cons]

theorem rrPeersOf_sum (f : RrPeer → ℕ) (servers : List StreamUpstreamServer) (single : Bool) :
    ∑ i ∈ range (rrPeersOf servers single).number, f ((rrPeersOf servers single).peer i) =
      (servers.map fun s => s.naddrs * f (rrPeerOf s)).sum := by
  simp only [rrPeersOf_number, rrPeersOf_peer]
  rw [sum_range_getD, sum_map_rrPeerList]

theorem fresh_rrPeersOf (servers : List StreamUpstreamServer) (single : Bool) : (rrPeersOf servers single).Fresh where
  currentWeight_eq := fun i hi => @forall_rrPeersOf (fun peer => peer.currentWeight = 0) servers (fun _ _ => rfl) single i hi
  effectiveWeight_eq := fun i hi =>
    @forall_rrPeersOf (fun peer => peer.effectiveWeight = Int64.ofNat peer.weight) servers (fun _ _ => rfl) single i hi
  conns_eq := fun i hi => @forall_rrPeersOf (fun peer => peer.conns = 0) servers (fun _ _ => rfl) single i hi
  fails_eq := fun i hi => @forall_rrPeersOf (fun peer => peer.fails = 0) servers (fun _ _ => rfl) single i hi
  tries_eq := by
    have hsum := rrPeersOf_sum (fun peer => if peer.down = false then 1 else 0) servers single
    rw [card_filter, hsum]
    change (servers.map fun s => if s.down then 0 else s.naddrs).sum =
      (servers.map fun s => s.naddrs * if s.down = false then 1 else 0).sum
    congr 1
    refine List.map_congr_left fun s _ => ?_
    cases s.down <;> simp

theorem fresh_default : (default : RrPeers).Fresh where
  currentWeight_eq := fun i hi => absurd hi (Nat.not_lt_zero i)
  effectiveWeight_eq := fun i hi => absurd hi (Nat.not_lt_zero i)
  conns_eq := fun i hi => absurd hi (Nat.not_lt_zero i)
  fails_eq := fun i hi => absurd hi (Nat.not_lt_zero i)
  tries_eq := rfl

theorem weight_pos_rrPeersOf (servers : List StreamUpstreamServer) (single : Bool) (i : ℕ)
    (hi : i < (rrPeersOf servers single).number) : 0 < ((rrPeersOf servers single).peer i).weight :=
  @forall_rrPeersOf (fun peer => 0 < peer.weight) servers (fun s _ => s.weight_pos) single i hi

theorem weight_lt_rrPeersOf (servers : List StreamUpstreamServer) (single : Bool) (i : ℕ)
    (hi : i < (rrPeersOf servers single).number) : ((rrPeersOf servers single).peer i).weight < 2 ^ 63 :=
  @forall_rrPeersOf (fun peer => peer.weight < 2 ^ 63) servers (fun s _ => s.weight_lt) single i hi

theorem totalWeight_rrPeersOf (servers : List StreamUpstreamServer) (single : Bool) :
    (rrPeersOf servers single).totalWeight =
      ∑ i ∈ range (rrPeersOf servers single).number, ((rrPeersOf servers single).peer i).weight :=
  (rrPeersOf_sum RrPeer.weight servers single).symm

theorem wf_of_lists {u : Upstream} (hweight : ∀ side i, i < (u.list side).number → 0 < ((u.list side).peer i).weight)
    (hlt : ∀ side i, i < (u.list side).number → ((u.list side).peer i).weight < 2 ^ 63)
    (htotal : ∀ side, (u.list side).totalWeight = ∑ i ∈ range (u.list side).number, ((u.list side).peer i).weight)
    (hprimary : 0 < (u.list .primary).number) (hbackup : u.next = true ↔ 0 < (u.list .backup).number)
    (hsingle : (u.list .primary).single = true → (u.list .primary).number = 1 ∧ u.next = false)
    (hbackups : (u.list .backup).single = false) : u.Wf where
  weight_pos := hweight
  weight_lt := hlt
  totalWeight_eq := htotal
  primary_pos := hprimary
  backup_pos := hbackup.mp
  backup_none := by
    intro hnext
    by_contra hpos
    rw [hbackup.mpr (Nat.pos_of_ne_zero hpos)] at hnext
    cases hnext
  single := by
    intro side
    cases side with
    | primary => exact hsingle
    | backup =>
      rw [hbackups]
      exact fun h => absurd h Bool.false_ne_true

/-- The peers of a configuration are well formed and fresh. -/
theorem ngxStreamUpstreamInitRoundRobin_spec {conf : UpstreamConf} {u : Upstream}
    (h : ngxStreamUpstreamInitRoundRobin conf = some u) : u.Wf ∧ ∀ side, (u.list side).Fresh := by
  cases conf with
  | servers servers =>
    simp only [ngxStreamUpstreamInitRoundRobin] at h
    split_ifs at h with hnone hbackup
    · obtain rfl := Option.some_inj.mp h
      constructor
      · refine wf_of_lists ?_ ?_ ?_ (Nat.pos_of_ne_zero hnone) ?_ (fun hone => ⟨of_decide_eq_true hone, rfl⟩) rfl
        · intro side i hi
          cases side with
          | primary => exact weight_pos_rrPeersOf _ _ i hi
          | backup => exact absurd hi (Nat.not_lt_zero i)
        · intro side i hi
          cases side with
          | primary => exact weight_lt_rrPeersOf _ _ i hi
          | backup => exact absurd hi (Nat.not_lt_zero i)
        · intro side
          cases side with
          | primary => exact totalWeight_rrPeersOf _ _
          | backup => rfl
        · exact ⟨fun hnext => absurd hnext Bool.false_ne_true, fun hpos => absurd hpos (Nat.not_lt_zero 0)⟩
      · intro side
        cases side with
        | primary => exact fresh_rrPeersOf _ _
        | backup => exact fresh_default
    · obtain rfl := Option.some_inj.mp h
      constructor
      · refine wf_of_lists ?_ ?_ ?_ (Nat.pos_of_ne_zero hnone) ?_ (fun hone => absurd hone Bool.false_ne_true) rfl
        · intro side i hi
          cases side with
          | primary => exact weight_pos_rrPeersOf _ _ i hi
          | backup => exact weight_pos_rrPeersOf _ _ i hi
        · intro side i hi
          cases side with
          | primary => exact weight_lt_rrPeersOf _ _ i hi
          | backup => exact weight_lt_rrPeersOf _ _ i hi
        · intro side
          cases side with
          | primary => exact totalWeight_rrPeersOf _ _
          | backup => exact totalWeight_rrPeersOf _ _
        · exact ⟨fun _ => Nat.pos_of_ne_zero hbackup, fun _ => rfl⟩
      · intro side
        cases side with
        | primary => exact fresh_rrPeersOf _ _
        | backup => exact fresh_rrPeersOf _ _
  | implicit n =>
    simp only [ngxStreamUpstreamInitRoundRobin] at h
    split_ifs at h with hnone
    obtain rfl := Option.some_inj.mp h
    constructor
    · refine wf_of_lists ?_ ?_ ?_ (Nat.pos_of_ne_zero hnone) ?_ (fun hone => ⟨of_decide_eq_true hone, rfl⟩) rfl
      · intro side i hi
        cases side with
        | primary => exact Nat.one_pos
        | backup => exact absurd hi (Nat.not_lt_zero i)
      · intro side i hi
        cases side with
        | primary => exact Nat.one_lt_two_pow (by decide)
        | backup => exact absurd hi (Nat.not_lt_zero i)
      · intro side
        cases side with
        | primary =>
          change n = ∑ _i ∈ range n, 1
          rw [sum_const, card_range, smul_eq_mul, mul_one]
        | backup => rfl
      · exact ⟨fun hnext => absurd hnext Bool.false_ne_true, fun hpos => absurd hpos (Nat.not_lt_zero 0)⟩
    · intro side
      cases side with
      | primary =>
        refine ⟨fun _ _ => rfl, fun _ _ => rfl, fun _ _ => rfl, fun _ _ => rfl, ?_⟩
        have hall : (range n).filter (fun _ => implicitPeer.down = false) = range n := filter_true_of_mem fun _ _ => rfl
        exact ((congrArg card hall).trans (card_range n)).symm
      | backup => exact fresh_default

/-! ### Runs of all sessions -/

/-- A session of the load balancer: its method, its data and its tries. -/
structure BalancerSession where
  method : Method
  data : PeerData
  tries : ℕ

/-- The peers of an upstream with all sessions that use them. -/
structure Balancer where
  points : List ChashPoint
  upstream : Upstream
  sessions : ℕ → Option BalancerSession

/-- A session starts, selects, frees or notifies, or a peer goes down or comes back. -/
inductive BalancerEvent where
  | start (s : ℕ) (method : Method) (key : List UInt8)
  | get (s : ℕ) (m : Moment)
  | free (s : ℕ) (failed : Bool) (now : ℤ)
  | notify (s : ℕ)
  | setDown (side : Tier) (p : ℕ) (down : Bool)

def Balancer.step (b : Balancer) : BalancerEvent → Balancer
  | .start s method key =>
    let init := peerInit method b.points b.upstream key
    { b with sessions := Function.update b.sessions s (some ⟨method, init.1, init.2⟩) }
  | .get s m =>
    match b.sessions s with
    | none => b
    | some session =>
      let got := peerGet session.method b.points m b.upstream session.data
      { b with upstream := got.2.1, sessions := Function.update b.sessions s (some { session with data := got.2.2 }) }
  | .free s failed now =>
    match b.sessions s with
    | none => b
    | some session =>
      let freed := ngxStreamUpstreamFreeRoundRobinPeer failed now b.upstream session.data.rrp session.tries
      { b with upstream := freed.1, sessions := Function.update b.sessions s (some { session with tries := freed.2 }) }
  | .notify s =>
    match b.sessions s with
    | none => b
    | some session => { b with upstream := ngxStreamUpstreamNotifyRoundRobinPeer b.upstream session.data.rrp }
  | .setDown side p down =>
    { b with upstream := b.upstream.modify side (·.modify p fun peer => { peer with down := down }) }

def Balancer.start (points : List ChashPoint) (u : Upstream) : Balancer := ⟨points, u, fun _ => none⟩

/-- The peers are those of the configuration with balanced weights, where no sum of them wraps, and only settled sessions
are at the backup list. -/
structure BalancerInv (u₀ : Upstream) (b : Balancer) : Prop where
  keeps : u₀.Keeps b.upstream
  balanced : ∀ side, (u₀.list side).Fits → (b.upstream.list side).Balanced
  settled : ∀ s session, b.sessions s = some session → session.data.rrp.peers = .backup →
    session.data.Settled session.method

theorem ngxStreamUpstreamFreeRoundRobinPeer_balanced (failed : Bool) (now : ℤ) {u : Upstream} (rrp : RrPeerData) (tries : ℕ)
    {side : Tier} (hu : (u.list side).Balanced) :
    ((ngxStreamUpstreamFreeRoundRobinPeer failed now u rrp tries).1.list side).Balanced := by
  rw [ngxStreamUpstreamFreeRoundRobinPeer_fst]
  cases rrp.current with
  | none => exact hu
  | some held =>
    refine Upstream.balanced_modify hu fun hside => ?_
    subst hside
    refine hu.modify held.2 (RrPeers.keeps_modify _ held.2 ?_ ?_) ?_ ?_
    · exact RrPeer.freed_weight _ failed now
    · exact RrPeer.freed_maxConns _ failed now
    · exact RrPeer.freed_currentWeight _ failed now
    · exact RrPeer.freed_effectiveWeight _ failed now

theorem ngxStreamUpstreamNotifyRoundRobinPeer_balanced {u : Upstream} (rrp : RrPeerData) {side : Tier}
    (hu : (u.list side).Balanced) : ((ngxStreamUpstreamNotifyRoundRobinPeer u rrp).list side).Balanced := by
  rw [ngxStreamUpstreamNotifyRoundRobinPeer]
  cases rrp.current with
  | none => exact hu
  | some held =>
    refine Upstream.balanced_modify hu fun hside => ?_
    subst hside
    refine hu.modify held.2 (RrPeers.keeps_modify _ held.2 (fun peer => ?_) fun peer => ?_) (fun peer => ?_)
      fun peer _ hpos => ?_
    · obtain h | h := peer.live_eq <;> rw [h]
    · obtain h | h := peer.live_eq <;> rw [h]
    · obtain h | h := peer.live_eq <;> rw [h]
    · obtain h | h := peer.live_eq <;> rw [h] <;> exact ⟨hpos, le_rfl⟩

/-- A session with new data is settled when it is at the backup list, and the others are as they were. -/
theorem settled_update {sessions : ℕ → Option BalancerSession} {s : ℕ} {session : BalancerSession}
    (h : ∀ s session, sessions s = some session → session.data.rrp.peers = .backup → session.data.Settled session.method)
    (hsession : session.data.rrp.peers = .backup → session.data.Settled session.method) :
    ∀ s' session', Function.update sessions s (some session) s' = some session' →
      session'.data.rrp.peers = .backup → session'.data.Settled session'.method := by
  intro s' session' hs'
  by_cases heq : s' = s
  · subst heq
    rw [Function.update_self, Option.some_inj] at hs'
    subst hs'
    exact hsession
  · rw [Function.update_of_ne heq] at hs'
    exact h s' session' hs'

theorem BalancerInv.step {u₀ : Upstream} (hwf : u₀.Wf) {b : Balancer} (h : BalancerInv u₀ b) (e : BalancerEvent) :
    BalancerInv u₀ (b.step e) := by
  cases e with
  | start s method key =>
    refine ⟨h.keeps, h.balanced, settled_update h.settled ?_⟩
    intro hside
    cases hside
  | get s m =>
    simp only [Balancer.step]
    cases hs : b.sessions s with
    | none => exact h
    | some session =>
      have hchooses := peerGet_chooses (hwf.keeps h.keeps) session.method b.points m (h.settled s session hs)
      exact ⟨h.keeps.trans hchooses.selects.keeps, fun side hfits => hchooses.selects.balanced (h.balanced side hfits),
        settled_update h.settled hchooses.settled⟩
  | free s failed now =>
    simp only [Balancer.step]
    cases hs : b.sessions s with
    | none => exact h
    | some session =>
      refine ⟨h.keeps.trans (ngxStreamUpstreamFreeRoundRobinPeer_keeps ..), ?_, settled_update h.settled (h.settled s session hs)⟩
      intro side hfits
      exact ngxStreamUpstreamFreeRoundRobinPeer_balanced failed now session.data.rrp session.tries (h.balanced side hfits)
  | notify s =>
    simp only [Balancer.step]
    cases hs : b.sessions s with
    | none => exact h
    | some session =>
      refine ⟨h.keeps.trans (ngxStreamUpstreamNotifyRoundRobinPeer_keeps ..), ?_, h.settled⟩
      exact fun side hfits => ngxStreamUpstreamNotifyRoundRobinPeer_balanced session.data.rrp (h.balanced side hfits)
  | setDown side p down =>
    refine ⟨h.keeps.trans (Upstream.keeps_modify_modify _ side p (fun _ => rfl) fun _ => rfl), ?_, h.settled⟩
    intro side' hfits
    have hbalanced := h.balanced side' hfits
    refine Upstream.balanced_modify (f := fun l => l.modify p fun peer => { peer with down := down }) hbalanced fun hside => ?_
    subst hside
    exact hbalanced.modify p (RrPeers.keeps_modify _ p (fun _ => rfl) fun _ => rfl) (fun _ => rfl)
      fun _ _ hpos => ⟨hpos, le_rfl⟩

theorem BalancerInv.start {conf : UpstreamConf} {u : Upstream} (hconf : ngxStreamUpstreamInitRoundRobin conf = some u)
    (points : List ChashPoint) : BalancerInv u (Balancer.start points u) where
  keeps := .refl u
  balanced := fun side hfits => ((ngxStreamUpstreamInitRoundRobin_spec hconf).2 side).balanced hfits
  settled := by
    intro s session hs
    cases hs

/-- In every state of every run the current weights of a list add up to zero, no effective weight is negative or above its
weight, no current weight is further from zero than all but one of the peers with the sum of the weights, and the next
sum does not wrap. -/
theorem balancer_weights {conf : UpstreamConf} {u : Upstream} (hconf : ngxStreamUpstreamInitRoundRobin conf = some u)
    (points : List ChashPoint) (events : List BalancerEvent) (side : Tier) (hfits : (u.list side).Fits) :
    let l := (run Balancer.step (Balancer.start points u) events).upstream.list side
    let n := (u.list side).number
    let W := ∑ i ∈ range n, ((u.list side).peer i).weight
    ∑ i ∈ range n, (l.peer i).currentWeight.toInt = 0 ∧
      ∀ i, i < n → 0 ≤ (l.peer i).effectiveWeight.toInt ∧
        (l.peer i).effectiveWeight.toInt ≤ ((u.list side).peer i).weight ∧
        |(l.peer i).currentWeight.toInt| ≤ ((n : ℤ) - 1) * (W : ℤ) ∧
        (l.peer i).currentWeight.toInt + (l.peer i).effectiveWeight.toInt < 2 ^ 63 := by
  obtain ⟨hwf, -⟩ := ngxStreamUpstreamInitRoundRobin_spec hconf
  have h := run_induction (I := BalancerInv u) (fun _ e h => h.step hwf e) (.start hconf points) events
  have hk := h.keeps.list side
  have hbalanced := h.balanced side hfits
  intro l n W
  have hcredit : Bounded (range n) (W : ℤ) fun i => (l.peer i).currentWeight.toInt := by
    have hW : (W : ℤ) = (u.list side).weights := Nat.cast_sum _ _
    rw [hW, ← hk.weights_eq]
    have hcredit := hbalanced.credit
    rw [hk.number_eq] at hcredit
    exact hcredit
  refine ⟨hcredit.sum, fun i hi => ?_⟩
  have hlt : i < l.number := by rwa [hk.number_eq]
  obtain ⟨hpos, hle⟩ := hbalanced.effective i hlt
  rw [hk.weight_eq] at hle
  have habs := hcredit.abs_credit_le (mem_range.mpr hi)
  rw [card_range] at habs
  exact ⟨hpos, hle, habs, (hbalanced.gain_current hlt).1⟩

/-- A server with one address. -/
def plainServer (name : List UInt8) (weight : ℕ) (h : 0 < weight) (hlt : weight < 2 ^ 63) : StreamUpstreamServer :=
  ⟨name, 1, weight, 0, 1, 10, false, false, h, hlt⟩

theorem one_lt_word : 1 < 2 ^ 63 := by decide

theorem two_lt_word : 2 < 2 ^ 63 := by decide

/-- Two servers of weights two and one. -/
def plainServers : UpstreamConf := .servers [plainServer [97] 2 Nat.two_pos two_lt_word, plainServer [98] 1 Nat.one_pos one_lt_word]

/-- The first peer is selected and fails; a second session passes it over. -/
theorem balancer_weights_failingRun :
    ∃ u, ngxStreamUpstreamInitRoundRobin plainServers = some u ∧
      (let b := run Balancer.step (Balancer.start [] u)
        [.start 0 .roundRobin [], .get 0 ⟨5, fun _ => 0⟩, .free 0 true 6, .start 1 .leastConn [], .get 1 ⟨7, fun _ => 0⟩]
      ((b.upstream.list .primary).peer 0).effectiveWeight = 0 ∧
        ∑ i ∈ range 2, ((b.upstream.list .primary).peer i).currentWeight.toInt = 0) := by
  have hconf : ngxStreamUpstreamInitRoundRobin plainServers = some _ := rfl
  exact ⟨_, hconf, by decide, (balancer_weights hconf [] _ .primary (by unfold RrPeers.Fits; decide)).1⟩

/-- A server whose weight is a quarter of the word. -/
def heavyServer (name : UInt8) : StreamUpstreamServer := plainServer [name] (2 ^ 62) (by decide) (by decide)

/-- After two selections from two such servers the current weights do not add up to zero. -/
theorem heavy_weights_wrap :
    ∃ u, ngxStreamUpstreamInitRoundRobin (.servers [heavyServer 97, heavyServer 98]) = some u ∧
      (let b := run Balancer.step (Balancer.start [] u)
        [.start 0 .roundRobin [], .get 0 ⟨5, fun _ => 0⟩, .start 1 .roundRobin [], .get 1 ⟨5, fun _ => 0⟩]
      ∑ i ∈ range 2, ((b.upstream.list .primary).peer i).currentWeight.toInt ≠ 0) := by
  have hconf : ngxStreamUpstreamInitRoundRobin (.servers [heavyServer 97, heavyServer 98]) = some _ := rfl
  exact ⟨_, hconf, by decide⟩

end NginxDtls
