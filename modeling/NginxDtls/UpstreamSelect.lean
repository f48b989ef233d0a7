import NginxDtls.Upstream
import NginxDtls.Credit

/-! What one selection does, whatever the method: it finds no peer, or it takes a peer of the session's list, or it finds
none there and takes one of the backup list. The peer was not tried and may have another connection; some peers of the
list gain their effective weight, and if there are any of them the peer that is taken is the heaviest of them and
pays for them all. -/

namespace NginxDtls

open Finset

/-! ### The bitmap -/

theorem and_bit_ne_zero {w : Uintptr} {k : ℕ} (hk : k < 64) : w &&& (1#64 <<< k) ≠ 0 ↔ w.getLsbD k = true := by
  constructor
  · intro h
    by_contra hbit
    simp only [Bool.not_eq_true] at hbit
    apply h
    ext j hj
    by_cases hjk : j = k
    · subst hjk
      simp_all
    · simp
      omega
  · intro h heq
    have hbit := congrArg (fun x => x.getLsbD k) heq
    simp only [BitVec.getLsbD_and, h, BitVec.getLsbD_shiftLeft, hk] at hbit
    simp at hbit

theorem triedBit_eq (tried : List Uintptr) (i : ℕ) :
    triedBit tried i = (tried.getD (i / 64) 0).getLsbD (i % 64) := by
  rw [triedBit, Bool.eq_iff_iff, decide_eq_true_iff]
  exact and_bit_ne_zero (Nat.mod_lt i (by decide))

theorem triedBit_setTried {tried : List Uintptr} {i : ℕ} (hi : i / 64 < tried.length) (j : ℕ) :
    triedBit (setTried tried i) j = (triedBit tried j || decide (i = j)) := by
  simp only [triedBit_eq, setTried, List.getD_eq_getElem?_getD, List.getElem?_set]
  by_cases hword : i / 64 = j / 64
  · rw [if_pos hword, if_pos hi]
    have hj : j % 64 < 64 := Nat.mod_lt j (by decide)
    simp only [Option.getD_some, hword, BitVec.getLsbD_or, BitVec.getLsbD_shiftLeft, hj]
    congr 1
    rw [Bool.eq_iff_iff]
    simp
    omega
  · rw [if_neg hword]
    have hne : i ≠ j := fun h => hword (by rw [h])
    simp [hne]

@[simp]
theorem length_setTried (tried : List Uintptr) (i : ℕ) : (setTried tried i).length = tried.length := by
  simp [setTried]

@[simp]
theorem length_clearTried (tried : List Uintptr) (number : ℕ) : (clearTried tried number).length = tried.length := by
  simp [clearTried]

theorem triedBit_clearTried (tried : List Uintptr) {number i : ℕ} (hi : i < number) :
    triedBit (clearTried tried number) i = false := by
  have hword : i / 64 < (number + 63) / 64 := by omega
  rw [triedBit_eq, clearTried, List.getD_eq_getElem?_getD, List.getElem?_mapIdx]
  cases tried[i / 64]? <;> simp [hword]

theorem triedBit_zeros (n i : ℕ) : triedBit (List.replicate n 0) i = false := by
  rw [triedBit_eq, List.getD_eq_getElem?_getD, List.getElem?_replicate]
  split <;> simp

theorem triedBit_init (u : Upstream) (i : ℕ) : triedBit (ngxStreamUpstreamInitRoundRobinPeer u).1.tried i = false := by
  rw [ngxStreamUpstreamInitRoundRobinPeer]
  dsimp only
  generalize (if u.next = true ∧ (u.list .primary).number < (u.list .backup).number then (u.list .backup).number
    else (u.list .primary).number) = n
  split
  · exact triedBit_zeros 1 i
  · exact triedBit_zeros _ i

/-! ### A loop over the peers -/

/-- The sum of the effective weights of some peers, in the word of the loop. -/
def effectiveTotal (peer : ℕ → RrPeer) (E : Finset ℕ) : Int64 := Int64.ofInt (∑ i ∈ E, (peer i).effectiveWeight.toInt)

@[simp]
theorem effectiveTotal_empty (peer : ℕ → RrPeer) : effectiveTotal peer ∅ = 0 := rfl

theorem effectiveTotal_insert (peer : ℕ → RrPeer) {E : Finset ℕ} {i : ℕ} (hi : i ∉ E) :
    effectiveTotal peer (insert i E) = effectiveTotal peer E + (peer i).effectiveWeight := by
  rw [effectiveTotal, sum_insert hi, add_comm, Int64.ofInt_add, Int64.ofInt_toInt, effectiveTotal]

/-- The loop has weighed the peers of `E`, and the best is the heaviest of them. -/
structure Weighed (peer : ℕ → RrPeer) (E : Finset ℕ) (st : Scan) : Prop where
  peer_eq : ∀ i, st.peer i = if i ∈ E then (peer i).gain else peer i
  total_eq : st.total = effectiveTotal peer E
  best_none : st.best = none ↔ E = ∅
  best_mem : ∀ b, st.best = some b → b ∈ E
  best_max : ∀ b, st.best = some b → ∀ j ∈ E,
    (peer j).gain.currentWeight.toInt ≤ (peer b).gain.currentWeight.toInt

theorem weighed_start (peer : ℕ → RrPeer) : Weighed peer ∅ ⟨peer, none, 0⟩ := by
  constructor <;> simp

theorem Weighed.weigh {peer : ℕ → RrPeer} {E : Finset ℕ} {st : Scan} (h : Weighed peer E st) {i : ℕ} (hi : i ∉ E) :
    Weighed peer (insert i E) (st.weigh i) := by
  have hsame : st.peer i = peer i := by rw [h.peer_eq, if_neg hi]
  have hupdate : ∀ j, (st.weigh i).peer j = if j ∈ insert i E then (peer j).gain else peer j := by
    intro j
    by_cases hj : j = i
    · subst hj
      simp [Scan.weigh, hsame]
    · simp [Scan.weigh, h.peer_eq, hj]
  have htotal : (st.weigh i).total = effectiveTotal peer (insert i E) := by
    rw [effectiveTotal_insert peer hi, Scan.weigh, h.total_eq, hsame]
  cases hb : st.best with
  | none =>
    have hempty : E = ∅ := h.best_none.mp hb
    have hbest : (st.weigh i).best = some i := by simp [Scan.weigh, hb]
    constructor
    · exact hupdate
    · exact htotal
    · simp [hbest]
    · intro b hbb
      rw [hbest] at hbb
      cases hbb
      exact mem_insert_self i E
    · intro b hbb j hj
      rw [hbest] at hbb
      cases hbb
      subst hempty
      rw [mem_insert] at hj
      cases hj with
      | inl hj => rw [hj]
      | inr hj => exact absurd hj (notMem_empty j)
  | some b =>
    have hbE := h.best_mem b hb
    have hmax := h.best_max b hb
    have hbi : b ≠ i := fun heq => hi (heq ▸ hbE)
    have hbest : (st.weigh i).best =
        if (peer b).gain.currentWeight.toInt < (peer i).gain.currentWeight.toInt then some i else some b := by
      simp [Scan.weigh, hb, Function.update_of_ne hbi, h.peer_eq, hbE, hi, Int64.lt_iff_toInt_lt]
    by_cases hlt : (peer b).gain.currentWeight.toInt < (peer i).gain.currentWeight.toInt
    · rw [if_pos hlt] at hbest
      constructor
      · exact hupdate
      · exact htotal
      · simp [hbest]
      · intro c hc
        rw [hbest] at hc
        cases hc
        exact mem_insert_self i E
      · intro c hc j hj
        rw [hbest] at hc
        cases hc
        cases mem_insert.mp hj with
        | inl hj => rw [hj]
        | inr hj => exact (hmax j hj).trans hlt.le
    · rw [if_neg hlt] at hbest
      constructor
      · exact hupdate
      · exact htotal
      · simp [hbest]
      · intro c hc
        rw [hbest] at hc
        cases hc
        exact mem_insert_of_mem hbE
      · intro c hc j hj
        rw [hbest] at hc
        cases hc
        cases mem_insert.mp hj with
        | inl hj => rw [hj]; exact not_lt.mp hlt
        | inr hj => exact hmax j hj

/-- A loop that leaves or weighs each of some peers it has not come by yet. What it leaves is passed over, what it
weighs is not. -/
theorem Weighed.foldl {peer : ℕ → RrPeer} (f : Scan → ℕ → Scan) (pass keep : ℕ → RrPeer → Prop)
    (hf : ∀ st i, (f st i = st ∧ pass i (st.peer i)) ∨ (f st i = st.weigh i ∧ keep i (st.peer i))) (is : List ℕ)
    (hnodup : is.Nodup) {E : Finset ℕ} {st : Scan} (h : Weighed peer E st) (hdisj : ∀ i ∈ is, i ∉ E) :
    ∃ E', E ⊆ E' ∧ (∀ i ∈ E', i ∈ E ∨ (i ∈ is ∧ keep i (peer i))) ∧ (∀ i ∈ is, i ∉ E' → pass i (peer i)) ∧
      Weighed peer E' (is.foldl f st) := by
  induction is generalizing E st with
  | nil =>
    refine ⟨E, subset_rfl, fun i hi => .inl hi, ?_, h⟩
    intro i hi
    exact absurd hi List.not_mem_nil
  | cons i is ih =>
    have hiE : i ∉ E := hdisj i List.mem_cons_self
    have hsame : st.peer i = peer i := by rw [h.peer_eq, if_neg hiE]
    have hi : i ∉ is := (List.nodup_cons.mp hnodup).1
    have hrest := (List.nodup_cons.mp hnodup).2
    rw [List.foldl_cons]
    obtain ⟨heq, hpass⟩ | ⟨heq, hkeep⟩ := hf st i
    · rw [heq]
      rw [hsame] at hpass
      obtain ⟨E', hsub, hmem, hleft, hw⟩ := ih hrest h fun j hj => hdisj j (List.mem_cons_of_mem i hj)
      refine ⟨E', hsub, ?_, ?_, hw⟩
      · intro j hj
        obtain hjE | ⟨hjis, hjk⟩ := hmem j hj
        · exact .inl hjE
        · exact .inr ⟨List.mem_cons_of_mem i hjis, hjk⟩
      · intro j hj hjE
        cases List.mem_cons.mp hj with
        | inl hj => rw [hj]; exact hpass
        | inr hj => exact hleft j hj hjE
    · rw [heq]
      rw [hsame] at hkeep
      have hdisj' : ∀ j ∈ is, j ∉ insert i E := by
        intro j hj hjE
        cases mem_insert.mp hjE with
        | inl hji => exact hi (hji ▸ hj)
        | inr hjE => exact hdisj j (List.mem_cons_of_mem i hj) hjE
      obtain ⟨E', hsub, hmem, hleft, hw⟩ := ih hrest (h.weigh hiE) hdisj'
      refine ⟨E', (subset_insert i E).trans hsub, ?_, ?_, hw⟩
      · intro j hj
        obtain hjE | ⟨hjis, hjk⟩ := hmem j hj
        · cases mem_insert.mp hjE with
          | inl hji => exact .inr ⟨hji ▸ List.mem_cons_self, hji ▸ hkeep⟩
          | inr hjE => exact .inl hjE
        · exact .inr ⟨List.mem_cons_of_mem i hjis, hjk⟩
      · intro j hj hjE
        cases List.mem_cons.mp hj with
        | inl hj => exact absurd (hsub (hj ▸ mem_insert_self i E)) hjE
        | inr hj => exact hleft j hj hjE

/-- The loop of round robin and of consistent hash weighs what it does not pass over. -/
theorem weighList_weighed (skip : ℕ → RrPeer → Bool) (l : RrPeers) :
    Weighed l.peer {i ∈ range l.number | skip i (l.peer i) = false} (weighList skip l) := by
  obtain ⟨E, -, hmem, hleft, hw⟩ := (weighed_start l.peer).foldl
    (fun (st : Scan) i => if skip i (st.peer i) then st else st.weigh i) (fun i peer => skip i peer = true)
    (fun i peer => skip i peer = false)
    (by intro st i; cases skip i (st.peer i) <;> simp) (List.range l.number) List.nodup_range (by simp)
  have hE : E = {i ∈ range l.number | skip i (l.peer i) = false} := by
    ext i
    rw [mem_filter, mem_range]
    constructor
    · intro hi
      obtain hi | ⟨hi, hkeep⟩ := hmem i hi
      · exact absurd hi (notMem_empty i)
      · exact ⟨List.mem_range.mp hi, hkeep⟩
    · rintro ⟨hi, hkeep⟩
      by_contra hiE
      have hskip := hleft i (List.mem_range.mpr hi) hiE
      rw [hkeep] at hskip
      cases hskip
  rw [← hE]
  exact hw

/-! ### What a selection does to a list -/

/-- The list after `p` was taken and the peers of `E` were weighed for it. -/
def served (l : RrPeers) (E : Finset ℕ) (p : ℕ) (now : ℤ) : RrPeers :=
  { l with
    peer := fun i =>
      let peer := if i ∈ E then (l.peer i).gain else l.peer i
      if i = p then (peer.pay (effectiveTotal l.peer E) now).connect else peer }

/-- The peers of `E` are on the list, and `p` is the heaviest of them if there are any. -/
structure Heaviest (l : RrPeers) (E : Finset ℕ) (p : ℕ) : Prop where
  lt : ∀ i ∈ E, i < l.number
  mem : E.Nonempty → p ∈ E
  max : ∀ j ∈ E, (l.peer j).gain.currentWeight.toInt ≤ (l.peer p).gain.currentWeight.toInt

theorem heaviest_empty (l : RrPeers) (p : ℕ) : Heaviest l ∅ p := by
  constructor <;> simp

theorem Weighed.served {l : RrPeers} {E : Finset ℕ} {st : Scan} (h : Weighed l.peer E st) (p : ℕ) (now : ℤ) :
    { l with peer := st.peer }.modify p (fun peer => (peer.pay st.total now).connect) = served l E p now := by
  simp only [RrPeers.modify, NginxDtls.served, RrPeers.mk.injEq, true_and]
  funext i
  by_cases hi : i = p
  · subst hi
    simp [h.peer_eq, h.total_eq]
  · simp [h.peer_eq, hi]

theorem Weighed.heaviest {l : RrPeers} {E : Finset ℕ} {st : Scan} (h : Weighed l.peer E st)
    (hlt : ∀ i ∈ E, i < l.number) {p : ℕ} (hp : st.best = some p) : Heaviest l E p where
  lt := hlt
  mem := fun _ => h.best_mem p hp
  max := h.best_max p hp

theorem RrPeer.connect_check (peer : RrPeer) (now : ℤ) : peer.connect.check now = (peer.check now).connect := by
  by_cases h : peer.failTimeout < now - peer.checked <;> simp [RrPeer.check, RrPeer.connect, h]

/-- A peer taken without weighing. -/
theorem served_empty (l : RrPeers) (p : ℕ) (now : ℤ) : served l ∅ p now = l.modify p (·.connect.check now) := by
  simp only [served, RrPeers.modify, RrPeers.mk.injEq, true_and]
  funext i
  by_cases hi : i = p
  · subst hi
    simp only [notMem_empty, if_false, if_true, effectiveTotal_empty, Function.update_self, RrPeer.pay, Int64.sub_zero,
      RrPeer.connect_check]
  · simp [hi]

/-! ### What a selection does -/

/-- The peer `p` of the session's list is taken. The only peer of a list without a next one is not looked up in the
bitmap, and its clock is left alone. -/
structure Takes (now : ℤ) (u : Upstream) (rrp : RrPeerData) (p : ℕ) (u' : Upstream) (rrp' : RrPeerData) : Prop where
  lt : p < (u.list rrp.peers).number
  up : ((u.list rrp.peers).peer p).down = false
  fits : ((u.list rrp.peers).peer p).maxConns ≠ 0 →
    ((u.list rrp.peers).peer p).conns < ((u.list rrp.peers).peer p).maxConns
  peers : rrp'.peers = rrp.peers
  current : rrp'.current = some (rrp.peers, p)
  effect : ((u.list rrp.peers).single = true ∧ rrp'.tried = rrp.tried ∧
      u' = u.modify rrp.peers (·.modify p (·.connect))) ∨
    ((u.list rrp.peers).single = false ∧ rrp'.tried = setTried rrp.tried p ∧ triedBit rrp.tried p = false ∧
      ∃ E, Heaviest (u.list rrp.peers) E p ∧ u' = u.modify rrp.peers fun l => served l E p now)

/-- The session's data when it turns to the backup list. -/
def RrPeerData.toBackup (rrp : RrPeerData) (u : Upstream) : RrPeerData :=
  { rrp with peers := .backup, tried := clearTried rrp.tried (u.list .backup).number }

/-- No peer of the primary list can be selected. -/
def Exhausted (now : ℤ) (u : Upstream) (rrp : RrPeerData) : Prop :=
  ∀ i, i < (u.list .primary).number → skipped rrp.tried now i ((u.list .primary).peer i) = true

inductive Selects (now : ℤ) (u : Upstream) (rrp : RrPeerData) : Got → Prop where
  | took {p : ℕ} {u' : Upstream} {rrp' : RrPeerData} (h : Takes now u rrp p u' rrp') : Selects now u rrp (.ok, u', rrp')
  | tookBackup {p : ℕ} {u' : Upstream} {rrp' : RrPeerData} (hside : rrp.peers = .primary) (hnext : u.next = true)
      (hnone : Exhausted now u rrp) (h : Takes now u (rrp.toBackup u) p u' rrp') : Selects now u rrp (.ok, u', rrp')
  | busy : Selects now u rrp (.busy, u, rrp)
  | busyBackup (hside : rrp.peers = .primary) (hnext : u.next = true) (hnone : Exhausted now u rrp) :
      Selects now u rrp (.busy, u, rrp.toBackup u)

/-- What holds of the peers of a configuration in every state. -/
structure Upstream.Wf (u : Upstream) : Prop where
  weight_pos : ∀ side i, i < (u.list side).number → 0 < ((u.list side).peer i).weight
  weight_lt : ∀ side i, i < (u.list side).number → ((u.list side).peer i).weight < 2 ^ 63
  totalWeight_eq : ∀ side, (u.list side).totalWeight = ∑ i ∈ range (u.list side).number, ((u.list side).peer i).weight
  primary_pos : 0 < (u.list .primary).number
  backup_pos : u.next = true → 0 < (u.list .backup).number
  backup_none : u.next = false → (u.list .backup).number = 0
  single : ∀ side, (u.list side).single = true → (u.list side).number = 1 ∧ u.next = false

theorem skipped_eq_false {tried : List Uintptr} {now : ℤ} {i : ℕ} {peer : RrPeer}
    (h : skipped tried now i peer = false) :
    triedBit tried i = false ∧ peer.down = false ∧ (peer.maxConns ≠ 0 → peer.conns < peer.maxConns) := by
  simp only [skipped, RrPeer.unavailable, Bool.or_eq_false_iff] at h
  obtain ⟨htried, ⟨hdown, -⟩, hconns⟩ := h
  refine ⟨htried, hdown, ?_⟩
  intro hmax
  simpa [hmax] using hconns

/-- A selection of a peer that was not passed over, from a list with several peers. -/
theorem takes_of_not_skipped {now : ℤ} {u : Upstream} {rrp : RrPeerData} {p : ℕ} {E : Finset ℕ}
    (hsingle : (u.list rrp.peers).single = false) (hlt : p < (u.list rrp.peers).number)
    (hskip : skipped rrp.tried now p ((u.list rrp.peers).peer p) = false) (hE : Heaviest (u.list rrp.peers) E p) :
    Takes now u rrp p (u.modify rrp.peers fun l => served l E p now) (rrp.took p (setTried rrp.tried p)) := by
  obtain ⟨htried, hdown, hconns⟩ := skipped_eq_false hskip
  exact ⟨hlt, hdown, hconns, rfl, rfl, .inr ⟨hsingle, rfl, htried, E, hE, rfl⟩⟩

/-- One call for one list takes a peer of it or, when it passes over all of them, turns to the next list. -/
def Attempts (now : ℤ) (u : Upstream) (rrp : RrPeerData) (again : Upstream → RrPeerData → Got) (got : Got) : Prop :=
  (∃ p u' rrp', Takes now u rrp p u' rrp' ∧ got = (.ok, u', rrp')) ∨
    (((u.list rrp.peers).single = false → ∀ i, i < (u.list rrp.peers).number →
      skipped rrp.tried now i ((u.list rrp.peers).peer i) = true) ∧ got = failedOver again u rrp)

theorem weighList_best {skip : ℕ → RrPeer → Bool} {l : RrPeers} {p : ℕ} (h : (weighList skip l).best = some p) :
    p < l.number ∧ skip p (l.peer p) = false ∧ Heaviest l {i ∈ range l.number | skip i (l.peer i) = false} p := by
  have hw := weighList_weighed skip l
  have hmem := hw.best_mem p h
  rw [mem_filter, mem_range] at hmem
  refine ⟨hmem.1, hmem.2, hw.heaviest ?_ h⟩
  intro i hi
  exact mem_range.mp (mem_filter.mp hi).1

theorem weighList_none {skip : ℕ → RrPeer → Bool} {l : RrPeers} (h : (weighList skip l).best = none) {i : ℕ}
    (hi : i < l.number) : skip i (l.peer i) = true := by
  have hempty := (weighList_weighed skip l).best_none.mp h
  by_contra hskip
  have hmem : i ∈ ({j ∈ range l.number | skip j (l.peer j) = false} : Finset ℕ) := by
    rw [mem_filter, mem_range]
    exact ⟨hi, by simpa using hskip⟩
  rw [hempty] at hmem
  exact absurd hmem (notMem_empty i)

theorem Upstream.modify_congr {u : Upstream} {side : Tier} {f g : RrPeers → RrPeers}
    (h : f (u.list side) = g (u.list side)) : u.modify side f = u.modify side g := by
  rw [Upstream.modify, Upstream.modify, h]

/-- `ngx_stream_upstream_get_peer` takes the heaviest of the peers that it does not pass over. -/
theorem ngxStreamUpstreamGetPeer_some {l : RrPeers} {tried : List Uintptr} {now : ℤ} {p : ℕ}
    (h : (weighList (skipped tried now) l).best = some p) :
    ∃ l', ngxStreamUpstreamGetPeer l tried now = some (p, l', setTried tried p) ∧
      l'.modify p (·.connect) = served l {i ∈ range l.number | skipped tried now i (l.peer i) = false} p now := by
  refine ⟨_, by rw [ngxStreamUpstreamGetPeer, h], ?_⟩
  rw [← (weighList_weighed (skipped tried now) l).served]
  simp [RrPeers.modify]

theorem getRoundRobinPeer_attempts {u : Upstream} (hwf : u.Wf) (now : ℤ) (again : Upstream → RrPeerData → Got)
    (rrp : RrPeerData) : Attempts now u rrp again (getRoundRobinPeer again now u rrp) := by
  cases hsingle : (u.list rrp.peers).single with
  | true =>
    simp only [getRoundRobinPeer, hsingle, if_true]
    split
    · exact .inr ⟨by simp [hsingle], rfl⟩
    · rename_i hfits
      simp only [Bool.or_eq_true, not_or, Bool.not_eq_true] at hfits
      have hlt : 0 < (u.list rrp.peers).number := by rw [(hwf.single rrp.peers hsingle).1]; exact Nat.one_pos
      have htakes : Takes now u rrp 0 (u.modify rrp.peers (·.modify 0 (·.connect)))
          { rrp with current := some (rrp.peers, 0) } := by
        refine ⟨hlt, hfits.1, ?_, rfl, rfl, .inl ⟨hsingle, rfl, rfl⟩⟩
        intro hmax
        simpa [hmax] using hfits.2
      exact .inl ⟨0, _, _, htakes, rfl⟩
  | false =>
    cases hbest : (weighList (skipped rrp.tried now) (u.list rrp.peers)).best with
    | none =>
      refine .inr ⟨fun _ i hi => weighList_none hbest hi, ?_⟩
      simp [getRoundRobinPeer, hsingle, ngxStreamUpstreamGetPeer, hbest]
    | some p =>
      obtain ⟨hlt, hskip, hheavy⟩ := weighList_best hbest
      obtain ⟨l', hget, hserved⟩ := ngxStreamUpstreamGetPeer_some hbest
      refine .inl ⟨p, _, _, takes_of_not_skipped hsingle hlt hskip hheavy, ?_⟩
      simp only [getRoundRobinPeer, hsingle, hget, Bool.false_eq_true, if_false]
      rw [Upstream.modify_congr (f := fun _ => l'.modify p (·.connect)) (g := fun l => served l _ p now) hserved]

/-- Two calls are enough, since the backup list has no next one. -/
theorem selects_of_attempts {now : ℤ} {u : Upstream} (hwf : u.Wf)
    {get : (Upstream → RrPeerData → Got) → Upstream → RrPeerData → Got}
    (h : ∀ again rrp, Attempts now u rrp again (get again u rrp)) (rrp : RrPeerData) :
    Selects now u rrp (get (get fun u rrp => (.busy, u, rrp)) u rrp) := by
  obtain ⟨p, u', rrp', htakes, heq⟩ | ⟨hnone, heq⟩ := h (get fun u rrp => (.busy, u, rrp)) rrp
  · rw [heq]
    exact .took htakes
  · rw [heq, failedOver]
    by_cases hgo : rrp.peers = .primary ∧ u.next
    · rw [if_pos hgo]
      obtain ⟨hside, hnext⟩ := hgo
      have hsingle : (u.list rrp.peers).single = false := by
        by_contra hsingle
        have := (hwf.single rrp.peers (by simpa using hsingle)).2
        rw [hnext] at this
        cases this
      have hexhausted : Exhausted now u rrp := by
        have := hnone hsingle
        rw [hside] at this
        exact this
      obtain ⟨p, u', rrp', htakes, heq'⟩ | ⟨-, heq'⟩ := h (fun u rrp => (.busy, u, rrp)) (rrp.toBackup u)
      · have : get (fun u rrp => (.busy, u, rrp)) u (rrp.toBackup u) = (.ok, u', rrp') := heq'
        rw [RrPeerData.toBackup] at this
        rw [this]
        exact .tookBackup hside hnext hexhausted htakes
      · have : get (fun u rrp => (.busy, u, rrp)) u (rrp.toBackup u) = (.busy, u, rrp.toBackup u) := by
          rw [heq', failedOver, if_neg]
          simp [RrPeerData.toBackup]
        rw [RrPeerData.toBackup] at this
        rw [this]
        exact .busyBackup hside hnext hexhausted
    · rw [if_neg hgo]
      exact .busy

theorem ngxStreamUpstreamGetRoundRobinPeer_selects {u : Upstream} (hwf : u.Wf) (now : ℤ) (rrp : RrPeerData) :
    Selects now u rrp (ngxStreamUpstreamGetRoundRobinPeer now u rrp) :=
  selects_of_attempts hwf (getRoundRobinPeer_attempts hwf now) rrp

/-! ### Least connections -/

/-- The first loop finds a peer that is not passed over, if there is one. -/
theorem leastConns_spec (l : RrPeers) (tried : List Uintptr) (now : ℤ) (k : ℕ) :
    match (List.range k).foldl (leastConnsStep l tried now) none with
    | none => ∀ i, i < k → skipped tried now i (l.peer i) = true
    | some (p, _) => p < k ∧ skipped tried now p (l.peer p) = false := by
  induction k with
  | zero => simp
  | succ k ih =>
    rw [List.range_succ, List.foldl_append, List.foldl_cons, List.foldl_nil]
    cases hbest : (List.range k).foldl (leastConnsStep l tried now) none with
    | none =>
      rw [hbest] at ih
      cases hskip : skipped tried now k (l.peer k) with
      | true =>
        simp only [leastConnsStep, hskip, if_true]
        intro i hi
        obtain hi | hi := Nat.lt_succ_iff_lt_or_eq.mp hi
        · exact ih i hi
        · rw [hi]
          exact hskip
      | false => simp [leastConnsStep, hskip]
    | some best =>
      obtain ⟨p, many⟩ := best
      rw [hbest] at ih
      have hold : p < k + 1 ∧ skipped tried now p (l.peer p) = false := ⟨Nat.lt_succ_of_lt ih.1, ih.2⟩
      cases hskip : skipped tried now k (l.peer k) with
      | true =>
        simp only [leastConnsStep, hskip, if_true]
        exact hold
      | false =>
        simp only [leastConnsStep, hskip, Bool.false_eq_true, if_false]
        split_ifs
        · exact ⟨Nat.lt_succ_self k, hskip⟩
        · exact hold
        · exact hold

theorem scan_start_weigh (peer : ℕ → RrPeer) (p : ℕ) :
    Scan.weigh ⟨peer, some p, 0⟩ p = Scan.weigh ⟨peer, none, 0⟩ p := by
  simp [Scan.weigh]

/-- The second loop weighs the best of the first and some of those after it. -/
theorem leastConnsRound_weighed {l : RrPeers} {tried : List Uintptr} {now : ℤ} {p : ℕ} (hlt : p < l.number)
    (hskip : skipped tried now p (l.peer p) = false) :
    ∃ E, p ∈ E ∧ (∀ i ∈ E, i < l.number ∧ skipped tried now i (l.peer i) = false) ∧
      Weighed l.peer E
        ((List.range' p (l.number - p)).foldl (leastConnsRound tried now) ⟨l.peer, some p, 0⟩) := by
  obtain ⟨k, hk⟩ : ∃ k, l.number - p = k + 1 := ⟨l.number - p - 1, by omega⟩
  rw [hk, List.range'_succ, List.foldl_cons]
  have hfirst : leastConnsRound tried now ⟨l.peer, some p, 0⟩ p = Scan.weigh ⟨l.peer, none, 0⟩ p := by
    rw [← scan_start_weigh]
    simp [leastConnsRound, hskip]
  rw [hfirst]
  have hstep : ∀ (st : Scan) i, (leastConnsRound tried now st i = st ∧ True) ∨
      (leastConnsRound tried now st i = st.weigh i ∧ skipped tried now i (st.peer i) = false) := by
    intro st i
    cases hb : st.best with
    | none => simp [leastConnsRound, hb]
    | some b =>
      simp only [leastConnsRound, hb]
      split
      · exact .inl ⟨rfl, trivial⟩
      · rename_i hnot
        simp only [Bool.or_eq_true, not_or, Bool.not_eq_true] at hnot
        exact .inr ⟨rfl, hnot.1⟩
  have hstart := (weighed_start l.peer).weigh (notMem_empty p)
  obtain ⟨E, hsub, hmem, -, hw⟩ := hstart.foldl (leastConnsRound tried now) (fun _ _ => True)
    (fun i peer => skipped tried now i peer = false) hstep (List.range' (p + 1) k) List.nodup_range' (by
      intro i hi
      simp at hi ⊢
      omega)
  refine ⟨E, hsub (mem_insert_self p ∅), ?_, hw⟩
  intro i hi
  obtain hi | ⟨hi, hkeep⟩ := hmem i hi
  · rw [mem_insert] at hi
    obtain hi | hi := hi
    · exact ⟨hi ▸ hlt, hi ▸ hskip⟩
    · exact absurd hi (notMem_empty i)
  · simp at hi
    exact ⟨by omega, hkeep⟩

theorem getLeastConnPeer_attempts {u : Upstream} (hwf : u.Wf) (now : ℤ) (again : Upstream → RrPeerData → Got)
    (rrp : RrPeerData) : Attempts now u rrp again (getLeastConnPeer again now u rrp) := by
  cases hsingle : (u.list rrp.peers).single with
  | true =>
    -- the only peer of a list without a next one: the two methods fail alike
    have hrr := getRoundRobinPeer_attempts hwf now (getRoundRobinPeer (fun u rrp => (.busy, u, rrp)) now) rrp
    simp only [getLeastConnPeer, hsingle, if_true, ngxStreamUpstreamGetRoundRobinPeer]
    obtain htakes | ⟨hnone, heq⟩ := hrr
    · exact .inl htakes
    · refine .inr ⟨hnone, ?_⟩
      simp [heq, failedOver, (hwf.single rrp.peers hsingle).2]
  | false =>
    have hspec := leastConns_spec (u.list rrp.peers) rrp.tried now (u.list rrp.peers).number
    simp only [getLeastConnPeer, hsingle, leastConns, Bool.false_eq_true, if_false]
    cases hbest : (List.range (u.list rrp.peers).number).foldl (leastConnsStep (u.list rrp.peers) rrp.tried now) none with
    | none =>
      rw [hbest] at hspec
      exact .inr ⟨fun _ => hspec, rfl⟩
    | some best =>
      obtain ⟨p, many⟩ := best
      rw [hbest] at hspec
      obtain ⟨hlt, hskip⟩ := hspec
      cases many with
      | false =>
        refine .inl ⟨p, _, _, takes_of_not_skipped hsingle hlt hskip (heaviest_empty _ p), ?_⟩
        simp only [Bool.false_eq_true, if_false, Option.getD_some]
        rw [Upstream.modify_congr (g := fun l => served l ∅ p now)]
        simp [served_empty, RrPeers.modify, RrPeer.pay, RrPeer.connect_check]
      | true =>
        obtain ⟨E, hp, hE, hw⟩ := leastConnsRound_weighed hlt hskip
        obtain ⟨b, hb⟩ : ∃ b, ((List.range' p ((u.list rrp.peers).number - p)).foldl (leastConnsRound rrp.tried now)
            ⟨(u.list rrp.peers).peer, some p, 0⟩).best = some b := by
          rw [← Option.isSome_iff_exists, Option.isSome_iff_ne_none]
          intro hnone
          rw [hw.best_none.mp hnone] at hp
          exact absurd hp (notMem_empty p)
        have hbE := hE b (hw.best_mem b hb)
        have hheavy := hw.heaviest (fun i hi => (hE i hi).1) hb
        refine .inl ⟨b, _, _, takes_of_not_skipped hsingle hbE.1 hbE.2 hheavy, ?_⟩
        simp only [if_true, hb, Option.getD_some]
        rw [Upstream.modify_congr (g := fun l => served l E b now)]
        rw [← hw.served]

theorem ngxStreamUpstreamGetLeastConnPeer_selects {u : Upstream} (hwf : u.Wf) (now : ℤ) (rrp : RrPeerData) :
    Selects now u rrp (ngxStreamUpstreamGetLeastConnPeer now u rrp) :=
  selects_of_attempts hwf (getLeastConnPeer_attempts hwf now) rrp

/-! ### Hash and random -/

/-- The walk along the weights stays on the list. -/
theorem hashIndex_lt (peer : ℕ → RrPeer) (left w p : ℕ) (h : w < ∑ i ∈ range left, (peer (p + i)).weight) :
    hashIndex peer left w p < p + left := by
  induction left generalizing w p with
  | zero => simp at h
  | succ left ih =>
    rw [sum_range_succ'] at h
    simp only [hashIndex]
    split
    · have hrest : w - (peer p).weight < ∑ i ∈ range left, (peer (p + 1 + i)).weight := by
        have hshift : ∑ i ∈ range left, (peer (p + (i + 1))).weight = ∑ i ∈ range left, (peer (p + 1 + i)).weight := by
          apply sum_congr rfl
          intro i _
          rw [Nat.add_assoc, Nat.add_comm 1 i]
        rw [hshift] at h
        simp only [Nat.add_zero] at h
        omega
      have := ih _ _ hrest
      omega
    · omega

theorem peekRandom_lt (u : Upstream) (x left i j : ℕ) (h : i < j) : peekRandom u x left i j < j := by
  induction left generalizing i j with
  | zero => exact h
  | succ left ih =>
    simp only [peekRandom]
    split
    · rename_i hwide
      split
      · have := ih i ((i + j) / 2) (by omega)
        omega
      · exact ih ((i + j) / 2) j (by omega)
    · exact h

/-- The passes end with what a pass or the weighing of all peers ends with. `I` holds before a pass, `J` after a
miss. -/
theorem passes_rule {D : Type} {pass : ℕ → D → Chosen ⊕ D} {getRrPeer : D → Chosen} {I J : ℕ → D → Prop}
    {Q : Chosen → Prop} (hhit : ∀ left d c, I left d → pass left d = .inl c → Q c)
    (hmiss : ∀ left d d', I left d → pass left d = .inr d' → J left d') (hnext : ∀ left d, J (left + 1) d → I left d)
    (hlast : ∀ d, J 0 d → Q (getRrPeer d)) (left : ℕ) (d : D) (h : I left d) : Q (passes pass getRrPeer left d) := by
  induction left generalizing d with
  | zero =>
    rw [passes]
    cases hp : pass 0 d with
    | inl c => exact hhit 0 d c h hp
    | inr d' => exact hlast d' (hmiss 0 d d' h hp)
  | succ left ih =>
    rw [passes]
    cases hp : pass (left + 1) d with
    | inl c => exact hhit (left + 1) d c h hp
    | inr d' => exact ih d' (hnext left d' (hmiss (left + 1) d d' h hp))

/-- The method now weighs all peers of the list in every selection. -/
def PeerData.Settled (method : Method) (data : PeerData) : Prop :=
  match method with
  | .roundRobin | .leastConn => True
  | .hash | .consistentHash => 20 < data.tries ∨ data.key = []
  | .random | .randomTwo => 20 < data.tries

/-- What a selection with the data of a method does. Only who weighs all peers gets to the backup list. -/
structure Chooses (method : Method) (now : ℤ) (u : Upstream) (rrp : RrPeerData) (c : Chosen) : Prop where
  selects : Selects now u rrp (c.1, c.2.1, c.2.2.rrp)
  settled : c.2.2.rrp.peers = .backup → c.2.2.Settled method

/-- The list of a session after a selection. -/
theorem Selects.peers {now : ℤ} {u : Upstream} {rrp rrp' : RrPeerData} {rc : NgxInt} {u' : Upstream}
    (h : Selects now u rrp (rc, u', rrp')) : rrp'.peers = rrp.peers ∨ (rrp'.peers = .backup ∧ u.next = true) := by
  cases h with
  | took h => exact .inl h.peers
  | tookBackup hside hnext hnone h => exact .inr ⟨h.peers, hnext⟩
  | busy => exact .inl rfl
  | busyBackup hside hnext hnone => exact .inr ⟨rfl, hnext⟩

theorem chooses_getRrPeer {method : Method} {u : Upstream} (hwf : u.Wf) (now : ℤ) {hp : PeerData}
    (h : hp.rrp.peers = .backup ∨ u.next = true → hp.Settled method) :
    Chooses method now u hp.rrp (hp.getRrPeer now u) := by
  have hselects := ngxStreamUpstreamGetRoundRobinPeer_selects hwf now hp.rrp
  refine ⟨hselects, ?_⟩
  intro hside
  have hsettled : hp.Settled method := by
    apply h
    obtain hsame | ⟨-, hnext⟩ := hselects.peers
    · exact .inl (hsame ▸ hside)
    · exact .inr hnext
  cases method <;> exact hsettled

/-- A peer taken without weighing, from the primary list. -/
theorem chooses_choose (method : Method) {u : Upstream} (now : ℤ) (hp : PeerData) {p : ℕ}
    (hsingle : (u.list hp.rrp.peers).single = false) (hlt : p < (u.list hp.rrp.peers).number)
    (hskip : skipped hp.rrp.tried now p ((u.list hp.rrp.peers).peer p) = false)
    (h : hp.rrp.peers = .backup → hp.Settled method) :
    Chooses method now u hp.rrp (hp.choose now u hp.rrp.peers p) := by
  constructor
  · have htakes := takes_of_not_skipped hsingle hlt hskip (heaviest_empty _ p)
    simp only [served_empty] at htakes
    exact .took htakes
  · intro hside
    have := h hside
    cases method <;> exact this

/-- The data in the passes of a selection: so many misses are left, and the rest is as it was. -/
def InPass (rrp : RrPeerData) (misses left : ℕ) (hp : PeerData) : Prop := hp.rrp = rrp ∧ hp.tries + left = misses

/-- A method with misses. -/
theorem chooses_passes {D : Type} (method : Method) {u : Upstream} (hwf : u.Wf) {now : ℤ} {rrp : RrPeerData}
    (hmethod : ∀ hp : PeerData, 20 < hp.tries → hp.Settled method)
    (hp : D → PeerData) {pass : ℕ → D → Chosen ⊕ D} {K : D → Prop}
    (hhit : ∀ left d c, (hp d).rrp = rrp → K d → pass left d = .inl c → Chooses method now u rrp c)
    (hmiss : ∀ left d d', (hp d).rrp = rrp → K d → pass left d = .inr d' →
      (hp d').rrp = rrp ∧ (hp d').tries = (hp d).tries + 1 ∧ K d')
    {d : D} (hrrp : (hp d).rrp = rrp) (htries : (hp d).tries ≤ 20) (hK : K d) :
    Chooses method now u rrp (passes pass (fun d => (hp d).getRrPeer now u) (20 - (hp d).tries) d) := by
  apply passes_rule (I := fun left d => InPass rrp 20 left (hp d) ∧ K d) (J := fun left d => InPass rrp 21 left (hp d) ∧ K d)
  · rintro left d c ⟨⟨hd, -⟩, hK⟩ hpass
    exact hhit left d c hd hK hpass
  · rintro left d d' ⟨⟨hd, hleft⟩, hK⟩ hpass
    obtain ⟨hd', htries, hK'⟩ := hmiss left d d' hd hK hpass
    exact ⟨⟨hd', by omega⟩, hK'⟩
  · rintro left d ⟨⟨hd, hleft⟩, hK⟩
    exact ⟨⟨hd, by omega⟩, hK⟩
  · rintro d ⟨⟨hd, hleft⟩, -⟩
    have hsettled : (hp d).Settled method := hmethod (hp d) (by omega)
    have := chooses_getRrPeer hwf now (fun _ => hsettled)
    rw [hd] at this
    exact this
  · exact ⟨⟨hrrp, by omega⟩, hK⟩

theorem side_eq_primary {method : Method} {data : PeerData} (h : data.rrp.peers = .backup → data.Settled method)
    (hnot : ¬ data.Settled method) : data.rrp.peers = .primary := by
  cases hside : data.rrp.peers with
  | primary => rfl
  | backup => exact absurd (h hside) hnot

/-- A method that weighs all peers, because it is settled or because there is a single one. -/
theorem chooses_early {method : Method} {u : Upstream} (hwf : u.Wf) (now : ℤ) {data : PeerData}
    (h : data.rrp.peers = .backup → data.Settled method)
    (hrr : data.Settled method ∨ (u.list data.rrp.peers).single = true) :
    Chooses method now u data.rrp (data.getRrPeer now u) := by
  apply chooses_getRrPeer hwf
  intro hgo
  obtain hsettled | hsingle := hrr
  · exact hsettled
  · obtain hside | hnext := hgo
    · exact h hside
    · rw [(hwf.single _ hsingle).2] at hnext
      cases hnext

theorem hashIndex_mod_lt {u : Upstream} (hwf : u.Wf) {side : Tier} (hpos : 0 < (u.list side).number) (hash : ℕ) :
    hashIndex (u.list side).peer (u.list side).number (hash % (u.list side).totalWeight) 0 < (u.list side).number := by
  have hweights : 0 < (u.list side).totalWeight := by
    rw [hwf.totalWeight_eq]
    exact sum_pos (fun i hi => hwf.weight_pos _ i (mem_range.mp hi)) ⟨0, mem_range.mpr hpos⟩
  have hmod := Nat.mod_lt hash hweights
  have := hashIndex_lt (u.list side).peer (u.list side).number (hash % (u.list side).totalWeight) 0 (by
    simpa only [Nat.zero_add, ← hwf.totalWeight_eq] using hmod)
  omega

theorem ngxStreamUpstreamGetHashPeer_chooses {u : Upstream} (hwf : u.Wf) (now : ℤ) {hp : PeerData}
    (h : hp.rrp.peers = .backup → hp.Settled .hash) :
    Chooses .hash now u hp.rrp (ngxStreamUpstreamGetHashPeer now u hp) := by
  rw [ngxStreamUpstreamGetHashPeer]
  split
  · rename_i hrr
    apply chooses_early hwf now h
    obtain hmany | hsingle | hkey := hrr
    · exact .inl (.inl hmany)
    · exact .inr hsingle
    · exact .inl (.inr hkey)
  · rename_i hpasses
    simp only [not_or, not_lt, Bool.not_eq_true] at hpasses
    obtain ⟨htries, hsingle, hkey⟩ := hpasses
    have hside := side_eq_primary h (by simp [PeerData.Settled, hkey, htries])
    apply chooses_passes .hash hwf (fun hp hmany => Or.inl hmany) id (K := fun _ => True) _ _ rfl htries trivial
    · intro left d c hd _ hpass
      have hrrp : d.rehashed.rrp = hp.rrp := hd
      simp only [id_eq]
      rw [← hrrp] at hside hsingle ⊢
      simp only [hashPass] at hpass
      split at hpass
      · cases hpass
      · rename_i hskip
        cases hpass
        apply chooses_choose .hash now d.rehashed hsingle
        · exact hashIndex_mod_lt hwf (hside ▸ hwf.primary_pos) _
        · exact Bool.not_eq_true _ ▸ hskip
        · intro hb
          rw [hside] at hb
          cases hb
    · intro left d d' hd _ hpass
      simp only [hashPass] at hpass
      split at hpass
      · cases hpass
        exact ⟨hd, rfl, trivial⟩
      · cases hpass

theorem ngxStreamUpstreamGetChashPeer_chooses {u : Upstream} (hwf : u.Wf) (points : List ChashPoint) (now : ℤ)
    {hp : PeerData} (h : hp.rrp.peers = .backup → hp.Settled .consistentHash) :
    Chooses .consistentHash now u hp.rrp (ngxStreamUpstreamGetChashPeer points now u hp) := by
  rw [ngxStreamUpstreamGetChashPeer]
  split
  · rename_i hrr
    apply chooses_early hwf now h
    obtain hmany | hsingle | hkey := hrr
    · exact .inl (.inl hmany)
    · exact .inr hsingle
    · exact .inl (.inr hkey)
  · rename_i hpasses
    simp only [not_or, not_lt, Bool.not_eq_true] at hpasses
    obtain ⟨htries, hsingle, hkey⟩ := hpasses
    have hside := side_eq_primary h (by simp [PeerData.Settled, hkey, htries])
    apply chooses_passes .consistentHash hwf (fun hp hmany => Or.inl hmany) id (K := fun _ => True) _ _ rfl htries trivial
    · intro left d c hd _ hpass
      simp only [id_eq] at hd ⊢
      rw [← hd] at hside hsingle ⊢
      simp only [chashPass] at hpass
      split at hpass
      · rename_i best hbest
        cases hpass
        obtain ⟨hlt, hskip, hheavy⟩ := weighList_best hbest
        simp only [Bool.or_eq_false_iff] at hskip
        have htakes := takes_of_not_skipped hsingle hlt hskip.1 hheavy
        constructor
        · rw [Upstream.modify_congr (g := fun l => served l _ best now) ((weighList_weighed _ _).served best now)]
          exact .took htakes
        · intro hb
          rw [RrPeerData.took, hside] at hb
          cases hb
      · cases hpass
    · intro left d d' hd _ hpass
      simp only [chashPass] at hpass
      split at hpass
      · cases hpass
      · cases hpass
        exact ⟨hd, rfl, trivial⟩

/-! ### Random -/

theorem ngxStreamUpstreamPeekRandomPeer_lt (u : Upstream) {l : RrPeers} (h : 0 < l.number) (random : ℕ) :
    ngxStreamUpstreamPeekRandomPeer u l random < l.number :=
  peekRandom_lt u _ _ 0 l.number h

theorem ngxStreamUpstreamGetRandomPeer_chooses {u : Upstream} (hwf : u.Wf) (random : ℕ → ℕ) (now : ℤ) {rp : PeerData}
    (h : rp.rrp.peers = .backup → rp.Settled .random) :
    Chooses .random now u rp.rrp (ngxStreamUpstreamGetRandomPeer random now u rp) := by
  rw [ngxStreamUpstreamGetRandomPeer]
  split
  · rename_i hrr
    exact chooses_early hwf now h hrr
  · rename_i hpasses
    simp only [not_or, not_lt, Bool.not_eq_true] at hpasses
    obtain ⟨htries, hsingle⟩ := hpasses
    have hside := side_eq_primary h (by simp [PeerData.Settled, htries])
    apply chooses_passes .random hwf (fun hp hmany => hmany) id (K := fun _ => True) _ _ rfl htries trivial
    · intro left d c hd _ hpass
      simp only [id_eq] at hd ⊢
      rw [← hd] at hside hsingle ⊢
      simp only [randomPass] at hpass
      split at hpass
      · cases hpass
      · rename_i hskip
        cases hpass
        rw [← hside] at hskip ⊢
        apply chooses_choose .random now d hsingle
        · exact ngxStreamUpstreamPeekRandomPeer_lt u (hside ▸ hwf.primary_pos) _
        · exact Bool.not_eq_true _ ▸ hskip
        · intro hb
          rw [hside] at hb
          cases hb
    · intro left d d' hd _ hpass
      simp only [randomPass] at hpass
      split at hpass
      · cases hpass
        exact ⟨hd, rfl, trivial⟩
      · cases hpass

/-- The peer kept for a later pass can be selected too. -/
def PrevFits (now : ℤ) (u : Upstream) (data : PeerData × Option ℕ) : Prop :=
  ∀ p, data.2 = some p → p < (u.list .primary).number ∧
    skipped data.1.rrp.tried now p ((u.list .primary).peer p) = false

theorem ngxStreamUpstreamGetRandomTwoPeer_chooses {u : Upstream} (hwf : u.Wf) (random : ℕ → ℕ) (now : ℤ)
    {rp : PeerData} (h : rp.rrp.peers = .backup → rp.Settled .randomTwo) :
    Chooses .randomTwo now u rp.rrp (ngxStreamUpstreamGetRandomTwoPeer random now u rp) := by
  rw [ngxStreamUpstreamGetRandomTwoPeer]
  split
  · rename_i hrr
    exact chooses_early hwf now h hrr
  · rename_i hpasses
    simp only [not_or, not_lt, Bool.not_eq_true] at hpasses
    obtain ⟨htries, hsingle⟩ := hpasses
    have hside := side_eq_primary h (by simp [PeerData.Settled, htries])
    apply chooses_passes .randomTwo hwf (fun hp hmany => hmany) Prod.fst (K := PrevFits now u) (d := (rp, none)) _ _ rfl
      htries (by intro p hp; cases hp)
    · rintro left ⟨d, prev⟩ c hd hprev hpass
      rw [← hd] at hside hsingle ⊢
      simp only [randomTwoPass] at hpass
      split at hpass
      · cases hpass
      · rename_i hskip
        simp only [not_or, Bool.not_eq_true] at hskip
        cases prev with
        | none => cases hpass
        | some p =>
          cases hpass
          have hfits := hprev p rfl
          have hi := ngxStreamUpstreamPeekRandomPeer_lt u (l := u.list d.rrp.peers) (hside ▸ hwf.primary_pos) (random left)
          rw [← hside] at hfits hskip ⊢
          split
          · exact chooses_choose .randomTwo now d hsingle hfits.1 hfits.2 (by rw [hside]; intro hb; cases hb)
          · exact chooses_choose .randomTwo now d hsingle hi hskip.2 (by rw [hside]; intro hb; cases hb)
    · rintro left ⟨d, prev⟩ ⟨d', prev'⟩ hd hprev hpass
      simp only at hd
      simp only [randomTwoPass] at hpass
      split at hpass
      · cases hpass
        exact ⟨hd, rfl, hprev⟩
      · rename_i hskip
        simp only [not_or, Bool.not_eq_true] at hskip
        cases prev with
        | none =>
          cases hpass
          refine ⟨hd, rfl, ?_⟩
          intro p hp
          cases hp
          refine ⟨?_, hskip.2⟩
          rw [hd, hside]
          exact ngxStreamUpstreamPeekRandomPeer_lt u hwf.primary_pos _
        | some p => cases hpass

/-! ### Every method -/

theorem peerGet_chooses {u : Upstream} (hwf : u.Wf) (method : Method) (points : List ChashPoint) (m : Moment)
    {data : PeerData} (h : data.rrp.peers = .backup → data.Settled method) :
    Chooses method m.now u data.rrp (peerGet method points m u data) := by
  cases method with
  | roundRobin => exact chooses_getRrPeer hwf m.now fun _ => trivial
  | leastConn => exact ⟨ngxStreamUpstreamGetLeastConnPeer_selects hwf m.now data.rrp, fun _ => trivial⟩
  | hash => exact ngxStreamUpstreamGetHashPeer_chooses hwf m.now h
  | consistentHash => exact ngxStreamUpstreamGetChashPeer_chooses hwf points m.now h
  | random => exact ngxStreamUpstreamGetRandomPeer_chooses hwf m.random m.now h
  | randomTwo => exact ngxStreamUpstreamGetRandomTwoPeer_chooses hwf m.random m.now h

end NginxDtls
