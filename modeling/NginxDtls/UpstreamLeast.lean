import NginxDtls.UpstreamSelect

/-! Least connections. The first loop compares the loads of two peers by products and keeps the first peer with the least
load; if others have the same load, the second loop weighs them and the first of the heaviest is taken. -/

namespace NginxDtls

/-- The peer `i` of the list is not passed over. -/
def Eligible (l : RrPeers) (tried : List Uintptr) (now : ℤ) (i : ℕ) : Prop :=
  i < l.number ∧ skipped tried now i (l.peer i) = false

/-- The connections of a peer for each unit of its weight. -/
def RrPeer.load (peer : RrPeer) : ℚ := peer.conns / peer.weight

/-- `peer->current_weight + peer->effective_weight`, as a number -/
def RrPeer.gained (peer : RrPeer) : ℤ := peer.currentWeight.toInt + peer.effectiveWeight.toInt

section Least

variable {l : RrPeers} {tried : List Uintptr} {now : ℤ}

/-- The weights of the eligible peers are positive, products of their connections and weights are words, and the sums of
their current and effective weights are `ngx_int_t`. -/
structure Comparable (l : RrPeers) (tried : List Uintptr) (now : ℤ) : Prop where
  weight_pos : ∀ i, Eligible l tried now i → 0 < (l.peer i).weight
  conns_nonneg : ∀ i, Eligible l tried now i → 0 ≤ (l.peer i).conns
  product_lt : ∀ i j, Eligible l tried now i → Eligible l tried now j →
    (l.peer i).conns * (l.peer j).weight < 2 ^ 64
  gained_word : ∀ i, Eligible l tried now i → -2 ^ 63 ≤ (l.peer i).gained ∧ (l.peer i).gained < 2 ^ 63

theorem Comparable.gain_eq (h : Comparable l tried now) {i : ℕ} (hi : Eligible l tried now i) :
    (l.peer i).gain.currentWeight.toInt = (l.peer i).gained := by
  obtain ⟨hlow, hhigh⟩ := h.gained_word i hi
  rw [RrPeer.gain, Int64.toInt_add]
  exact Int.bmod_eq_of_le_mul_two (by rw [RrPeer.gained] at hlow; push_cast; omega)
    (by rw [RrPeer.gained] at hhigh; push_cast; omega)

theorem Comparable.scaledConns_eq (h : Comparable l tried now) {i j : ℕ} (hi : Eligible l tried now i)
    (hj : Eligible l tried now j) : scaledConns (l.peer i) (l.peer j) = (l.peer i).conns * (l.peer j).weight :=
  Int.emod_eq_of_lt (Int.mul_nonneg (h.conns_nonneg i hi) (Int.natCast_nonneg _)) (h.product_lt i j hi hj)

theorem load_le_iff {one two : RrPeer} (hone : 0 < one.weight) (htwo : 0 < two.weight) :
    one.load ≤ two.load ↔ one.conns * two.weight ≤ two.conns * one.weight := by
  rw [RrPeer.load, RrPeer.load, div_le_div_iff₀ (by exact_mod_cast hone) (by exact_mod_cast htwo)]
  exact_mod_cast Iff.rfl

/-- The comparison by products is the comparison of the loads. -/
theorem Comparable.lt_iff (h : Comparable l tried now) {i j : ℕ} (hi : Eligible l tried now i)
    (hj : Eligible l tried now j) :
    scaledConns (l.peer i) (l.peer j) < scaledConns (l.peer j) (l.peer i) ↔ (l.peer i).load < (l.peer j).load := by
  rw [h.scaledConns_eq hi hj, h.scaledConns_eq hj hi, ← not_le, ← not_le,
    load_le_iff (h.weight_pos j hj) (h.weight_pos i hi)]

theorem Comparable.eq_iff (h : Comparable l tried now) {i j : ℕ} (hi : Eligible l tried now i)
    (hj : Eligible l tried now j) :
    scaledConns (l.peer i) (l.peer j) = scaledConns (l.peer j) (l.peer i) ↔ (l.peer i).load = (l.peer j).load := by
  have hlt := h.lt_iff hi hj
  have hgt := h.lt_iff hj hi
  constructor
  · intro heq
    rw [heq] at hlt hgt
    exact le_antisymm (not_lt.mp fun hload => lt_irrefl _ (hgt.mpr hload)) (not_lt.mp fun hload => lt_irrefl _ (hlt.mpr hload))
  · intro heq
    rw [heq] at hlt hgt
    exact le_antisymm (not_lt.mp fun hprod => lt_irrefl _ (hgt.mp hprod)) (not_lt.mp fun hprod => lt_irrefl _ (hlt.mp hprod))

/-! ### The first loop -/

/-- Of the first `k` peers `best` is the first with the least load, and its flag is not set if it is the only one. -/
def LeastOf (l : RrPeers) (tried : List Uintptr) (now : ℤ) (k : ℕ) : Option (ℕ × Bool) → Prop
  | none => ∀ i < k, ¬Eligible l tried now i
  | some (p, many) => p < k ∧ Eligible l tried now p ∧
      (∀ q < k, Eligible l tried now q → (l.peer p).load ≤ (l.peer q).load) ∧
      (∀ q < p, Eligible l tried now q → (l.peer p).load < (l.peer q).load) ∧
      (many = false → ∀ q < k, Eligible l tried now q → q ≠ p → (l.peer p).load < (l.peer q).load)

theorem leastConnsStep_leastOf (h : Comparable l tried now) {k : ℕ} (hk : k < l.number) {best : Option (ℕ × Bool)}
    (hbest : LeastOf l tried now k best) : LeastOf l tried now (k + 1) (leastConnsStep l tried now best k) := by
  have hcases : ∀ {q : ℕ}, q < k + 1 → q < k ∨ q = k := fun hq => Nat.lt_succ_iff_lt_or_eq.mp hq
  unfold leastConnsStep
  dsimp only
  cases hskip : skipped tried now k (l.peer k) with
  | true =>
    have hnot : ¬Eligible l tried now k := fun hel => by
      rw [hel.2] at hskip
      cases hskip
    rw [if_pos rfl]
    match best, hbest with
    | none, hnone =>
      intro i hi hel
      rcases hcases hi with hi | rfl
      · exact hnone i hi hel
      · exact hnot hel
    | some (p, many), ⟨hp, hel, hle, hlt, hone⟩ =>
      refine ⟨Nat.lt_succ_of_lt hp, hel, fun q hq hq' => ?_, hlt, fun hmany q hq hq' hne => ?_⟩
      · rcases hcases hq with hq | rfl
        · exact hle q hq hq'
        · exact absurd hq' hnot
      · rcases hcases hq with hq | rfl
        · exact hone hmany q hq hq' hne
        · exact absurd hq' hnot
  | false =>
    have helk : Eligible l tried now k := ⟨hk, hskip⟩
    rw [if_neg Bool.false_ne_true]
    match best, hbest with
    | none, hnone =>
      refine ⟨Nat.lt_succ_self k, helk, fun q hq hq' => ?_, fun q hq hq' => absurd hq' (hnone q hq), fun _ q hq hq' hne => ?_⟩
      · rcases hcases hq with hq | rfl
        · exact absurd hq' (hnone q hq)
        · exact le_refl _
      · rcases hcases hq with hq | rfl
        · exact absurd hq' (hnone q hq)
        · exact absurd rfl hne
    | some (p, many), ⟨hp, hel, hle, hlt, hone⟩ =>
      dsimp only
      by_cases hless : scaledConns (l.peer k) (l.peer p) < scaledConns (l.peer p) (l.peer k)
      · -- a new best: everything before it is heavier
        have hload := (h.lt_iff helk hel).mp hless
        rw [if_pos hless]
        refine ⟨Nat.lt_succ_self k, helk, fun q hq hq' => ?_, fun q hq hq' => hload.trans_le (hle q hq hq'),
          fun _ q hq hq' hne => ?_⟩
        · rcases hcases hq with hq | rfl
          · exact hload.le.trans (hle q hq hq')
          · exact le_refl _
        · rcases hcases hq with hq | rfl
          · exact hload.trans_le (hle q hq hq')
          · exact absurd rfl hne
      · have hload := not_lt.mp (mt (h.lt_iff helk hel).mpr hless)
        have hle' : ∀ q < k + 1, Eligible l tried now q → (l.peer p).load ≤ (l.peer q).load := fun q hq hq' => by
          rcases hcases hq with hq | rfl
          · exact hle q hq hq'
          · exact hload
        rw [if_neg hless]
        split
        · exact ⟨Nat.lt_succ_of_lt hp, hel, hle', hlt, fun hmany => by cases hmany⟩
        · rename_i hne
          refine ⟨Nat.lt_succ_of_lt hp, hel, hle', hlt, fun hmany q hq hq' hqp => ?_⟩
          rcases hcases hq with hq | rfl
          · exact hone hmany q hq hq' hqp
          · exact lt_of_le_of_ne hload fun heq => hne ((h.eq_iff helk hel).mpr heq.symm)

theorem leastConns_leastOf (h : Comparable l tried now) : LeastOf l tried now l.number (leastConns l tried now) := by
  have hprefix : ∀ k ≤ l.number, LeastOf l tried now k ((List.range k).foldl (leastConnsStep l tried now) none) := by
    intro k
    induction k with
    | zero => exact fun _ i hi => absurd hi (Nat.not_lt_zero i)
    | succ k ih =>
      intro hk
      rw [List.range_succ, List.foldl_append]
      exact leastConnsStep_leastOf h hk (ih (Nat.le_of_succ_le hk))
  exact hprefix l.number (Nat.le_refl _)

/-! ### The second loop -/

/-- Eligible, with the load of `p`. -/
def Tied (l : RrPeers) (tried : List Uintptr) (now : ℤ) (p q : ℕ) : Prop :=
  Eligible l tried now q ∧ (l.peer q).load = (l.peer p).load

/-- `b` is the first of the peers from `p` up to `k` that are tied with `p` and heaviest. -/
def FirstHeaviest (l : RrPeers) (tried : List Uintptr) (now : ℤ) (p k b : ℕ) : Prop :=
  b < k ∧ Tied l tried now p b ∧ ∀ q < k, p ≤ q → Tied l tried now p q →
    (l.peer q).gained < (l.peer b).gained ∨ (l.peer q).gained = (l.peer b).gained ∧ b ≤ q

/-- The state of the second loop before peer `k`. The peers from `k` on are as they were. -/
structure Weighing (l : RrPeers) (tried : List Uintptr) (now : ℤ) (p k : ℕ) (st : Scan) : Prop where
  best : ∃ b, st.best = some b ∧ FirstHeaviest l tried now p k b ∧ (st.peer b).currentWeight.toInt = (l.peer b).gained
  conns : ∀ i, (st.peer i).conns = (l.peer i).conns
  weight : ∀ i, (st.peer i).weight = (l.peer i).weight
  rest : ∀ i, k ≤ i → st.peer i = l.peer i

/-- The first iteration weighs the best peer of the first loop, which stays the best. -/
theorem leastConnsRound_start (h : Comparable l tried now) {p : ℕ} (hp : Eligible l tried now p) :
    Weighing l tried now p (p + 1) (leastConnsRound tried now ⟨l.peer, some p, 0⟩ p) := by
  have hround : leastConnsRound tried now ⟨l.peer, some p, 0⟩ p = Scan.weigh ⟨l.peer, some p, 0⟩ p := by
    unfold leastConnsRound
    dsimp only
    rw [if_neg (by rw [hp.2]; simp)]
  rw [hround, Scan.weigh]
  refine ⟨⟨p, ?_, ⟨Nat.lt_succ_self p, ⟨hp, rfl⟩, fun q hq hpq _ => ?_⟩, ?_⟩, fun i => ?_, fun i => ?_, fun i hi => ?_⟩
  · dsimp only
    rw [if_neg (by rw [Int64.lt_iff_toInt_lt]; exact lt_irrefl _)]
  · obtain rfl : q = p := Nat.le_antisymm (Nat.lt_succ_iff.mp hq) hpq
    exact Or.inr ⟨rfl, Nat.le_refl _⟩
  · dsimp only
    rw [Function.update_self]
    exact h.gain_eq hp
  · by_cases hi : i = p
    · subst hi
      dsimp only
      rw [Function.update_self]
      rfl
    · dsimp only
      rw [Function.update_of_ne hi]
  · by_cases hi : i = p
    · subst hi
      dsimp only
      rw [Function.update_self]
      rfl
    · dsimp only
      rw [Function.update_of_ne hi]
  · dsimp only
    rw [Function.update_of_ne (by omega)]

theorem leastConnsRound_weighing (h : Comparable l tried now) {p k : ℕ} {st : Scan} (hk : k < l.number)
    (hst : Weighing l tried now p k st) : Weighing l tried now p (k + 1) (leastConnsRound tried now st k) := by
  obtain ⟨⟨b, hb, ⟨hbk, hbtied, hfirst⟩, hweight⟩, hconns, hweights, hrest⟩ := hst
  have hpeer : st.peer k = l.peer k := hrest k (Nat.le_refl k)
  have hscaled : ∀ i j, scaledConns (st.peer i) (st.peer j) = scaledConns (l.peer i) (l.peer j) := fun i j => by
    rw [scaledConns, scaledConns, hconns, hweights]
  unfold leastConnsRound
  rw [hb]
  dsimp only
  rw [hscaled, hscaled, hpeer]
  by_cases hpass : skipped tried now k (l.peer k) = true ∨
      scaledConns (l.peer k) (l.peer b) ≠ scaledConns (l.peer b) (l.peer k)
  · rw [if_pos (by simpa using hpass)]
    have hnot : ¬Tied l tried now p k := fun ⟨hel, hload⟩ => by
      rcases hpass with hskip | hne
      · rw [hel.2] at hskip
        cases hskip
      · exact hne ((h.eq_iff hel hbtied.1).mpr (hload.trans hbtied.2.symm))
    refine ⟨⟨b, hb, ⟨Nat.lt_succ_of_lt hbk, hbtied, fun q hq hpq hq' => ?_⟩, hweight⟩, hconns, hweights,
      fun i hi => hrest i (Nat.le_of_succ_le hi)⟩
    rcases Nat.lt_succ_iff_lt_or_eq.mp hq with hq | rfl
    · exact hfirst q hq hpq hq'
    · exact absurd hq' hnot
  · rw [if_neg (by simpa using hpass)]
    obtain ⟨hskip, hne⟩ := not_or.mp hpass
    have hel : Eligible l tried now k := ⟨hk, Bool.not_eq_true _ ▸ hskip⟩
    have htied : Tied l tried now p k := ⟨hel, ((h.eq_iff hel hbtied.1).mp (not_not.mp hne)).trans hbtied.2⟩
    have hbne : b ≠ k := Nat.ne_of_lt hbk
    have hkgain : (st.peer k).gain.currentWeight.toInt = (l.peer k).gained := by
      rw [hpeer]
      exact h.gain_eq hel
    -- the weights that the loop compares
    have hbest : (st.weigh k).best = if (l.peer b).gained < (l.peer k).gained then some k else some b := by
      rw [Scan.weigh, hb]
      dsimp only
      simp only [Function.update_of_ne hbne, Function.update_self, Int64.lt_iff_toInt_lt, hweight, hkgain]
    have hupdate : ∀ i, (st.weigh k).peer i = if i = k then (st.peer k).gain else st.peer i := fun i => by
      rw [Scan.weigh]
      exact Function.update_apply st.peer k _ i
    refine ⟨?_, fun i => ?_, fun i => ?_, fun i hi => ?_⟩
    · by_cases hgain : (l.peer b).gained < (l.peer k).gained
      · rw [if_pos hgain] at hbest
        refine ⟨k, hbest, ⟨Nat.lt_succ_self k, htied, fun q hq hpq hq' => ?_⟩, by rw [hupdate, if_pos rfl, hkgain]⟩
        rcases Nat.lt_succ_iff_lt_or_eq.mp hq with hq | rfl
        · rcases hfirst q hq hpq hq' with hless | ⟨heq, -⟩
          · exact Or.inl (hless.trans hgain)
          · exact Or.inl (heq ▸ hgain)
        · exact Or.inr ⟨rfl, Nat.le_refl _⟩
      · rw [if_neg hgain] at hbest
        refine ⟨b, hbest, ⟨Nat.lt_succ_of_lt hbk, hbtied, fun q hq hpq hq' => ?_⟩, by rw [hupdate, if_neg hbne, hweight]⟩
        rcases Nat.lt_succ_iff_lt_or_eq.mp hq with hq | rfl
        · exact hfirst q hq hpq hq'
        · rcases (not_lt.mp hgain).lt_or_eq with hless | heq
          · exact Or.inl hless
          · exact Or.inr ⟨heq, Nat.le_of_lt hbk⟩
    · rw [hupdate]
      split
      · rename_i hi
        rw [hi, ← hconns k]
        rfl
      · exact hconns i
    · rw [hupdate]
      split
      · rename_i hi
        rw [hi, ← hweights k]
        rfl
      · exact hweights i
    · rw [hupdate, if_neg (by omega)]
      exact hrest i (Nat.le_of_succ_le hi)

/-- The second loop finds the first of the heaviest tied peers. -/
theorem leastConnsRound_foldl (h : Comparable l tried now) {p : ℕ} (hp : Eligible l tried now p) :
    Weighing l tried now p l.number
      ((List.range' p (l.number - p)).foldl (leastConnsRound tried now) ⟨l.peer, some p, 0⟩) := by
  have hprefix : ∀ m, p + 1 + m ≤ l.number → Weighing l tried now p (p + 1 + m)
      ((List.range' p (m + 1)).foldl (leastConnsRound tried now) ⟨l.peer, some p, 0⟩) := by
    intro m
    induction m with
    | zero => exact fun _ => leastConnsRound_start h hp
    | succ m ih =>
      intro hm
      rw [List.range'_concat, List.foldl_append]
      have hround := leastConnsRound_weighing h (by omega) (ih (by omega))
      rw [show p + 1 + m = p + 1 * (m + 1) by omega] at hround
      rw [show p + 1 + (m + 1) = p + 1 * (m + 1) + 1 by omega]
      exact hround
  have hlt := hp.1
  have hlast := hprefix (l.number - p - 1) (by omega)
  rw [show p + 1 + (l.number - p - 1) = l.number by omega, show l.number - p - 1 + 1 = l.number - p by omega] at hlast
  exact hlast

/-! ### The choice -/

/-- The peer that is chosen has the least load, and is the first of the heaviest peers with this load. -/
structure LeastChoice (l : RrPeers) (tried : List Uintptr) (now : ℤ) (p : ℕ) : Prop where
  eligible : Eligible l tried now p
  least : ∀ q, Eligible l tried now q →
    (l.peer p).conns * (l.peer q).weight ≤ (l.peer q).conns * (l.peer p).weight
  first : ∀ q, Eligible l tried now q →
    (l.peer p).conns * (l.peer q).weight = (l.peer q).conns * (l.peer p).weight →
    (l.peer q).gained < (l.peer p).gained ∨ (l.peer q).gained = (l.peer p).gained ∧ p ≤ q

theorem load_eq_iff {one two : RrPeer} (hone : 0 < one.weight) (htwo : 0 < two.weight) :
    one.load = two.load ↔ one.conns * two.weight = two.conns * one.weight := by
  rw [le_antisymm_iff, load_le_iff hone htwo, load_le_iff htwo hone, ← le_antisymm_iff]

/-- Every least-connections choice among the eligible peers is optimal. -/
theorem leastConn_optimal {u : Upstream} {rrp : RrPeerData} (hsingle : (u.list rrp.peers).single = false)
    (h : Comparable (u.list rrp.peers) rrp.tried now) (hsome : ∃ i, Eligible (u.list rrp.peers) rrp.tried now i) :
    ∃ p u' rrp', ngxStreamUpstreamGetLeastConnPeer now u rrp = (.ok, u', rrp') ∧
      rrp'.current = some (rrp.peers, p) ∧ LeastChoice (u.list rrp.peers) rrp.tried now p := by
  have hleast := leastConns_leastOf h
  rw [ngxStreamUpstreamGetLeastConnPeer, getLeastConnPeer]
  simp only [hsingle, Bool.false_eq_true, if_false]
  cases hloop : leastConns (u.list rrp.peers) rrp.tried now with
  | none =>
    rw [hloop] at hleast
    obtain ⟨i, hi⟩ := hsome
    exact absurd hi (hleast i hi.1)
  | some best =>
    obtain ⟨p, many⟩ := best
    rw [hloop] at hleast
    obtain ⟨-, hp, hle, hbefore, hone⟩ := hleast
    have hwp := h.weight_pos p hp
    dsimp only
    cases many with
    | false =>
      refine ⟨p, _, _, rfl, rfl, hp, fun q hq => (load_le_iff hwp (h.weight_pos q hq)).mp (hle q hq.1 hq),
        fun q hq heq => ?_⟩
      by_cases hqp : q = p
      · rw [hqp]
        exact Or.inr ⟨rfl, Nat.le_refl p⟩
      · have hload := (load_eq_iff hwp (h.weight_pos q hq)).mpr heq
        exact absurd hload (hone rfl q hq.1 hq hqp).ne
    | true =>
      obtain ⟨⟨b, hb, ⟨-, hbtied, hfirst⟩, -⟩, -, -, -⟩ := leastConnsRound_foldl h hp
      simp only [if_true, hb, Option.getD_some]
      have hwb := h.weight_pos b hbtied.1
      refine ⟨b, _, _, rfl, rfl, hbtied.1, fun q hq => ?_, fun q hq heq => ?_⟩
      · rw [← load_le_iff hwb (h.weight_pos q hq), hbtied.2]
        exact hle q hq.1 hq
      · have hload : (u.list rrp.peers |>.peer q).load = ((u.list rrp.peers).peer p).load := by
          rw [← hbtied.2]
          exact ((load_eq_iff hwb (h.weight_pos q hq)).mpr heq).symm
        refine hfirst q hq.1 (Nat.le_of_not_lt fun hqp => ?_) ⟨hq, hload⟩
        exact absurd hload.symm (hbefore q hqp hq).ne

end Least

/-- Two addresses of a host. -/
def twoPeers : Upstream where
  list := fun _ => { number := 2, totalWeight := 2, tries := 2, single := false, peer := fun _ => implicitPeer }
  next := false

theorem leastConn_optimal_two : ∃ p u' rrp',
    ngxStreamUpstreamGetLeastConnPeer 0 twoPeers ⟨.primary, none, [0]⟩ = (.ok, u', rrp') ∧
      rrp'.current = some (.primary, p) ∧ LeastChoice (twoPeers.list .primary) [0] 0 p :=
  @leastConn_optimal 0 twoPeers ⟨.primary, none, [0]⟩ rfl
    ⟨fun _ _ => Nat.one_pos, fun _ _ => Int.le_refl 0, fun _ _ _ _ => (by decide : (0 : ℤ) * (1 : ℕ) < 2 ^ 64),
      fun _ _ => (by decide : -2 ^ 63 ≤ implicitPeer.gained ∧ implicitPeer.gained < 2 ^ 63)⟩ ⟨0, by decide, by decide⟩

/-- Two peers without connections, each with a quarter of the word as its weight, and the second with as much credit. -/
def heavyPeers : Upstream where
  list := fun _ =>
    { number := 2, totalWeight := 2 ^ 63, tries := 2, single := false,
      peer := fun i =>
        { implicitPeer with
          weight := 2 ^ 62
          effectiveWeight := Int64.ofNat (2 ^ 62)
          currentWeight := if i = 1 then Int64.ofNat (2 ^ 62) else 0 } }
  next := false

/-- The sum of the second peer wraps, and the first one is taken. -/
theorem heavyPeers_wrap : ∃ u' rrp',
    ngxStreamUpstreamGetLeastConnPeer 0 heavyPeers ⟨.primary, none, [0]⟩ = (.ok, u', rrp') ∧
      rrp'.current = some (.primary, 0) ∧ ¬ LeastChoice (heavyPeers.list .primary) [0] 0 0 := by
  refine ⟨_, _, rfl, by decide, fun h => ?_⟩
  have hfirst := h.first 1 ⟨by decide, by decide⟩ (by decide)
  revert hfirst
  decide

end NginxDtls
