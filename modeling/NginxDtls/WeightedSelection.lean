import NginxDtls.Upstream

/-! The two weighted selections of a peer, on the words of the source: the walk of `ngx_stream_upstream_get_hash_peer` along
the list, and the search of `ngx_stream_upstream_peek_random_peer` in the ranges of `ngx_stream_upstream_update_random`. -/

namespace NginxDtls.Weights

/-! ### Shares of an interval -/

/-- The element `p` of a list of lengths has `w`, when the lengths are laid one behind another. -/
structure Owner (lengths : List ℕ) (w p : ℕ) : Prop where
  inside : p < lengths.length
  low : (lengths.take p).sum ≤ w
  high : w < (lengths.take (p + 1)).sum

theorem sum_take_mono (lengths : List ℕ) {p q : ℕ} (h : p ≤ q) : (lengths.take p).sum ≤ (lengths.take q).sum := by
  rw [← List.take_append_drop p (lengths.take q), List.sum_append, List.take_take, Nat.min_eq_left h]
  exact Nat.le_add_right _ _

theorem sum_take_lt (lengths : List ℕ) {p q : ℕ} (h : p < q) : (lengths.take (p + 1)).sum ≤ (lengths.take q).sum :=
  sum_take_mono lengths h

/-- Nothing has two owners. -/
theorem Owner.unique {lengths : List ℕ} {w p q : ℕ} (hp : Owner lengths w p) (hq : Owner lengths w q) : p = q := by
  rcases Nat.lt_trichotomy p q with h | h | h
  · have := sum_take_lt lengths h
    have := hp.high
    have := hq.low
    omega
  · exact h
  · have := sum_take_lt lengths h
    have := hq.high
    have := hp.low
    omega

theorem sum_take_succ (lengths : List ℕ) {p : ℕ} (hp : p < lengths.length) :
    (lengths.take (p + 1)).sum = (lengths.take p).sum + lengths[p] := by
  rw [List.take_succ_eq_append_getElem hp, List.sum_append, List.sum_singleton]

/-- An element owns as much as its length. -/
theorem card_owner {lengths : List ℕ} {pick : ℕ → Option ℕ}
    (hpick : ∀ w < lengths.sum, ∀ p, pick w = some p ↔ Owner lengths w p) {p : ℕ} (hp : p < lengths.length) :
    ((Finset.range lengths.sum).filter fun w => pick w = some p).card = lengths[p] := by
  have hinterval : ((Finset.range lengths.sum).filter fun w => pick w = some p) =
      Finset.Ico (lengths.take p).sum (lengths.take (p + 1)).sum := by
    ext w
    rw [Finset.mem_filter, Finset.mem_range, Finset.mem_Ico]
    constructor
    · rintro ⟨hw, hown⟩
      have hown := (hpick w hw p).mp hown
      exact ⟨hown.low, hown.high⟩
    · rintro ⟨hlow, hhigh⟩
      have hw : w < lengths.sum := by
        have := sum_take_lt lengths hp
        rw [List.take_length] at this
        omega
      exact ⟨hw, (hpick w hw p).mpr ⟨hp, hlow, hhigh⟩⟩
  rw [hinterval, Nat.card_Ico, sum_take_succ lengths hp]
  omega

/-! ### The selections -/

/-- The weights of a list of peers: positive values of `ngx_int_t`. -/
structure PeerWeights where
  weights : List ℕ
  positive : ∀ weight ∈ weights, 0 < weight ∧ weight < 2 ^ 63

/-- `total_weight`, an `ngx_uint_t` -/
def totalWeight (weights : List ℕ) : ℕ := weights.sum % 2 ^ 64

/-- A value of `ngx_uint_t` as an `ngx_int_t`. -/
def ngxInt (n : ℕ) : ℤ := if n < 2 ^ 63 then n else n - 2 ^ 64

/-- `while (w >= peer->weight)`, with the number of peers before the list; `none` is a step off the list. -/
def hashWalk : List ℕ → ℤ → ℕ → Option ℕ
  | [], _, _ => none
  | weight :: peers, w, p => if w ≥ weight then hashWalk peers (w - weight) (p + 1) else some p

/-- The index that `ngx_stream_upstream_get_hash_peer` finds for `w`. -/
def hashPeer (weights : List ℕ) (w : ℕ) : Option ℕ := hashWalk weights (ngxInt w) 0

/-- The ranges of `ngx_stream_upstream_update_random`, for peers behind others of the given weight. -/
def updateRandom : List ℕ → ℕ → List ℕ
  | [], _ => []
  | weight :: peers, total => total :: updateRandom peers ((total + weight) % 2 ^ 64)

/-- The loop of `ngx_stream_upstream_peek_random_peer`; `none` is a range behind the last one. -/
def peekLoop (ranges : List ℕ) (x i j : ℕ) : Option ℕ :=
  if 1 < j - i then
    match ranges[(i + j) / 2]? with
    | none => none
    | some range => if x < range then peekLoop ranges x i ((i + j) / 2) else peekLoop ranges x ((i + j) / 2) j
  else some i
termination_by j - i

/-- The index that `ngx_stream_upstream_peek_random_peer` finds for `x`. -/
def peekRandomPeer (weights : List ℕ) (x : ℕ) : Option ℕ := peekLoop (updateRandom weights 0) x 0 weights.length

/-- Both pick the same peer of the list, and each peer as often as its weight says. -/
structure Agree (weights : List ℕ) : Prop where
  same : ∀ w < totalWeight weights, hashPeer weights w = peekRandomPeer weights w
  inside : ∀ w < totalWeight weights, ∃ p < weights.length, hashPeer weights w = some p
  share : ∀ (p : ℕ) (hp : p < weights.length),
    ((Finset.range (totalWeight weights)).filter fun w => hashPeer weights w = some p).card = weights[p]

/-! ### Both find the owner -/

theorem hashWalk_owner (weights : List ℕ) (w p : ℕ) (hw : w < weights.sum) :
    ∃ q, hashWalk weights w p = some (p + q) ∧ Owner weights w q := by
  induction weights generalizing w p with
  | nil => exact absurd hw (Nat.not_lt_zero w)
  | cons weight peers ih =>
      rw [hashWalk]
      by_cases hle : weight ≤ w
      · have hrest : w - weight < peers.sum := by
          rw [List.sum_cons] at hw
          omega
        obtain ⟨q, hq, hown⟩ := ih (w - weight) (p + 1) hrest
        refine ⟨q + 1, ?_, ?_, ?_, ?_⟩
        · rw [if_pos (by exact_mod_cast hle), ← Nat.cast_sub hle, hq]
          congr 1
          omega
        · exact Nat.succ_lt_succ hown.inside
        · have := hown.low
          rw [List.take_succ_cons, List.sum_cons]
          omega
        · have := hown.high
          rw [List.take_succ_cons, List.sum_cons]
          omega
      · refine ⟨0, ?_, Nat.succ_pos _, Nat.zero_le w, ?_⟩
        · rw [if_neg (by exact_mod_cast hle)]
          rfl
        · rw [List.take_succ_cons, List.sum_cons]
          omega

/-- Without overflow a range is the weight of the peers before it. -/
theorem updateRandom_getElem? (weights : List ℕ) (total : ℕ) (hsum : total + weights.sum < 2 ^ 64) (k : ℕ)
    (hk : k < weights.length) : (updateRandom weights total)[k]? = some (total + (weights.take k).sum) := by
  induction weights generalizing total k with
  | nil => exact absurd hk (Nat.not_lt_zero k)
  | cons weight peers ih =>
      rw [List.sum_cons] at hsum
      rw [updateRandom]
      cases k with
      | zero => simp
      | succ k =>
          rw [List.getElem?_cons_succ, Nat.mod_eq_of_lt (by omega), ih _ (by omega) k (Nat.lt_of_succ_lt_succ hk),
            List.take_succ_cons, List.sum_cons, Nat.add_assoc]

/-- The search keeps the owner between its bounds. -/
theorem peekLoop_owner {weights : List ℕ} (hsum : weights.sum < 2 ^ 64) {x i j q : ℕ} (hown : Owner weights x q)
    (hj : j ≤ weights.length) (hlow : i ≤ q) (hhigh : q < j) : peekLoop (updateRandom weights 0) x i j = some q := by
  induction hn : j - i using Nat.strong_induction_on generalizing i j with
  | _ n ih =>
      rw [peekLoop]
      by_cases hmore : 1 < j - i
      · have hk : (i + j) / 2 < weights.length := by omega
        have hrange := updateRandom_getElem? weights 0 (by omega) _ hk
        rw [Nat.zero_add] at hrange
        rw [if_pos hmore, hrange]
        show (if x < (weights.take ((i + j) / 2)).sum then _ else _) = _
        by_cases hx : x < (weights.take ((i + j) / 2)).sum
        · rw [if_pos hx]
          refine ih _ ?_ (by omega) hlow ?_ rfl
          · omega
          · by_contra hge
            have := sum_take_mono weights (Nat.not_lt.mp hge)
            have := hown.low
            omega
        · rw [if_neg hx]
          refine ih _ ?_ hj ?_ hhigh rfl
          · omega
          · by_contra hlt
            have := sum_take_lt weights (Nat.not_le.mp hlt)
            have := hown.high
            omega
      · rw [if_neg hmore]
        congr 1
        omega

/-- The walk and the search agree, and give each peer its share, if the weights add up to no more than a value of
`ngx_int_t` can say. -/
theorem selections_agree (l : PeerWeights) (hsum : l.weights.sum ≤ 2 ^ 63) : Agree l.weights := by
  have htotal : totalWeight l.weights = l.weights.sum := Nat.mod_eq_of_lt (by omega)
  have hhash : ∀ w < l.weights.sum, ∃ q, hashPeer l.weights w = some q ∧ Owner l.weights w q := by
    intro w hw
    obtain ⟨q, hq, hown⟩ := hashWalk_owner l.weights w 0 hw
    rw [Nat.zero_add] at hq
    refine ⟨q, ?_, hown⟩
    rw [hashPeer, ngxInt, if_pos (by omega), hq]
  constructor
  · intro w hw
    rw [htotal] at hw
    obtain ⟨q, hq, hown⟩ := hhash w hw
    rw [hq]
    exact (peekLoop_owner (by omega) hown le_rfl (Nat.zero_le q) hown.inside).symm
  · intro w hw
    rw [htotal] at hw
    obtain ⟨q, hq, hown⟩ := hhash w hw
    exact ⟨q, hown.inside, hq⟩
  · intro p hp
    rw [htotal]
    refine card_owner ?_ hp
    intro w hw p
    obtain ⟨q, hq, hown⟩ := hhash w hw
    rw [hq]
    constructor
    · rintro ⟨⟩
      exact hown
    · intro hp
      rw [hown.unique hp]

theorem selections_agree_three : [1, 2, 3].sum ≤ 2 ^ 63 ∧ Agree [1, 2, 3] :=
  ⟨by decide, selections_agree ⟨[1, 2, 3], by decide⟩ (by decide)⟩

/-- Weights whose sum does not fit its word: the walk takes the first peer for 0, the search another one. -/
theorem selections_disagree : ¬∀ l : PeerWeights, Agree l.weights := by
  intro h
  have hsame := (h ⟨[2 ^ 63 - 1, 2 ^ 63 - 1, 2, 5, 1, 1], by decide⟩).same 0 (by decide)
  have hranges : updateRandom [2 ^ 63 - 1, 2 ^ 63 - 1, 2, 5, 1, 1] 0 = [0, 2 ^ 63 - 1, 2 ^ 64 - 2, 0, 5, 6] := by decide
  have hhash : hashPeer [2 ^ 63 - 1, 2 ^ 63 - 1, 2, 5, 1, 1] 0 = some 0 := by decide
  have hpeek : peekRandomPeer [2 ^ 63 - 1, 2 ^ 63 - 1, 2, 5, 1, 1] 0 = some 3 := by
    rw [peekRandomPeer, hranges]
    simp [peekLoop]
  rw [hhash, hpeek] at hsame
  exact absurd (Option.some.inj hsame) (by decide)

/-! ### Without overflow -/

/-- The weights of the peers of a list, from one on. -/
def weightsFrom (peer : ℕ → RrPeer) (p number : ℕ) : List ℕ := (List.range' p number).map fun i => (peer i).weight

theorem hashWalk_eq (peer : ℕ → RrPeer) (left w p : ℕ) (hw : w < (weightsFrom peer p left).sum) :
    hashWalk (weightsFrom peer p left) w p = some (hashIndex peer left w p) := by
  induction left generalizing w p with
  | zero => exact absurd hw (Nat.not_lt_zero w)
  | succ left ih =>
      have hcons : weightsFrom peer p (left + 1) = (peer p).weight :: weightsFrom peer (p + 1) left := rfl
      rw [hcons] at hw ⊢
      rw [hashWalk, hashIndex]
      by_cases hle : (peer p).weight ≤ w
      · rw [List.sum_cons] at hw
        rw [if_pos (by exact_mod_cast hle), if_pos hle, ← Nat.cast_sub hle]
        exact ih _ _ (by omega)
      · rw [if_neg (by exact_mod_cast hle), if_neg hle]

theorem randomRange_eq (u : Upstream) {k number : ℕ} (hk : k ≤ number) :
    ((weightsFrom (u.list .primary).peer 0 number).take k).sum = randomRange u k := by
  rw [weightsFrom, randomRange, ← List.map_take, List.take_range'_of_length_ge hk, List.range_eq_range']

theorem peekLoop_eq (u : Upstream) {number : ℕ} (hsum : (weightsFrom (u.list .primary).peer 0 number).sum < 2 ^ 64)
    (x : ℕ) {left i j : ℕ} (hj : j ≤ number) (hleft : j - i ≤ left + 1) :
    peekLoop (updateRandom (weightsFrom (u.list .primary).peer 0 number) 0) x i j = some (peekRandom u x left i j) := by
  induction left generalizing i j with
  | zero => rw [peekLoop, if_neg (by omega), peekRandom]
  | succ left ih =>
      rw [peekLoop, peekRandom]
      by_cases hmore : 1 < j - i
      · have hk : (i + j) / 2 < number := by omega
        have hlength : (weightsFrom (u.list .primary).peer 0 number).length = number := by simp [weightsFrom]
        have hrange := updateRandom_getElem? (weightsFrom (u.list .primary).peer 0 number) 0 (by omega) ((i + j) / 2)
          (by omega)
        rw [Nat.zero_add, randomRange_eq u hk.le] at hrange
        rw [if_pos hmore, if_pos hmore, hrange]
        show (if x < randomRange u ((i + j) / 2) then _ else _) = some (if x < randomRange u ((i + j) / 2) then _ else _)
        split
        · exact ih hk.le (by omega)
        · exact ih hj (by omega)
      · rw [if_neg hmore, if_neg hmore]

/-- On a list whose weights add up to its total, the selections of the model on natural numbers are those on words. -/
theorem ngxStreamUpstreamPeekRandomPeer_eq (u : Upstream) (random : ℕ)
    (hsum : (weightsFrom (u.list .primary).peer 0 (u.list .primary).number).sum < 2 ^ 64) :
    peekRandomPeer (weightsFrom (u.list .primary).peer 0 (u.list .primary).number)
        (random % (u.list .primary).totalWeight) =
      some (ngxStreamUpstreamPeekRandomPeer u (u.list .primary) random) := by
  have hlength : (weightsFrom (u.list .primary).peer 0 (u.list .primary).number).length = (u.list .primary).number := by
    simp [weightsFrom]
  rw [peekRandomPeer, hlength]
  exact peekLoop_eq u hsum _ le_rfl (by omega)

end NginxDtls.Weights
