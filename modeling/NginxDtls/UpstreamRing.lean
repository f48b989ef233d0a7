import NginxDtls.HashRing
import NginxDtls.UpstreamWeights

/-! The ring of `hash ... consistent`: the points of the servers as `ngx_stream_upstream_init_chash` makes, sorts and
thins them, the search on it and the selection that follows. A key goes to the owner of its point, and taking a server
away or lowering its weight moves only the keys of that server. -/

namespace NginxDtls

open HashRing Run

/-! ### Points -/

/-- The number of digits after the last colon of a name that is read from its end, if it has a port. -/
def portDigits : List UInt8 → ℕ → Option ℕ
  | [], _ => none
  | c :: rest, j => if c = 58 then some j else if c < 48 ∨ 57 < c then none else portDigits rest (j + 1)

/-- A name with `unixPrefix` in any case. -/
def isUnix (server : List UInt8) : Bool :=
  5 ≤ server.length ∧ (server.take 5).map (fun c => if 65 ≤ c ∧ c ≤ 90 then c ||| 0x20 else c) = unixPrefix

/-- `host` and `port`. -/
def hostPort (server : List UInt8) : List UInt8 × List UInt8 :=
  if isUnix server then (server.drop 5, [])
  else
    match portDigits server.reverse 0 with
    | some j => (server.take (server.length - j - 1), server.drop (server.length - j))
    | none => (server, [])

/-- `base_hash`. -/
def baseHash (server : List UInt8) : UInt32 :=
  ngxCrc32Update (ngxCrc32Update (ngxCrc32Update ngxCrc32Init (hostPort server).1) [0]) (hostPort server).2

/-- `prev_hash.byte`. -/
def prevHashBytes (value : UInt32) : List UInt8 :=
  [value.toUInt8, (value >>> 8).toUInt8, (value >>> 16).toUInt8, (value >>> 24).toUInt8]

/-- The hashes of `npoints` points, each with the one before in it. -/
def chashHashes (base : UInt32) : ℕ → UInt32 → List UInt32
  | 0, _ => []
  | npoints + 1, prev =>
    let hash := ngxCrc32Final (ngxCrc32Update base (prevHashBytes prev))
    hash :: chashHashes base npoints hash

/-- Where a point is on the ring. -/
def ChashPoint.place (p : ChashPoint) : ℕ := p.hash.toNat

/-- `npoints` of a peer, a word: 160 for each unit of its weight. -/
def npointsOf (peer : RrPeer) : UInt64 := UInt64.ofNat peer.weight * 160

def peerPoints (peer : RrPeer) : List ChashPoint :=
  (chashHashes (baseHash peer.server) (npointsOf peer).toNat 0).map fun hash => ⟨hash, peer.server⟩

/-- The points of a list of peers, in the order of the list. -/
def chashPoints (peers : RrPeers) : List ChashPoint := (List.range peers.number).flatMap fun i => peerPoints (peers.peer i)

/-- `size`, a word: a point has 16 bytes, and one is in the head of the points. -/
def chashSize (peers : RrPeers) : UInt64 := 24 + 16 * (UInt64.ofNat peers.totalWeight * 160 - 1)

/-- `ngx_qsort` with `ngx_stream_upstream_chash_cmp_points`. Where it puts points of one hash is not known. -/
structure ChashSort where
  sort : List ChashPoint → List ChashPoint
  perm : ∀ l, (sort l).Perm l
  sorted : ∀ l, (sort l).Pairwise fun p q => p.place ≤ q.place

/-- `if (points->point[i].hash != points->point[j].hash) points->point[++i] = points->point[j]`. -/
def thinStep (st : List ChashPoint × ℕ) (j : ℕ) : List ChashPoint × ℕ :=
  if (st.1.getD st.2 default).hash ≠ (st.1.getD j default).hash then
    (st.1.set (st.2 + 1) (st.1.getD j default), st.2 + 1)
  else st

/-- The loop over the sorted points, which keeps the first of each hash in place. -/
def thinPoints (point : List ChashPoint) : List ChashPoint :=
  let st := (List.range' 1 (point.length - 1)).foldl thinStep (point, 0)
  st.1.take (st.2 + 1)

/-- `ngx_stream_upstream_init_chash`: the peers and the points. `palloc` says whether there is memory of a size; the
points are to fit into it. -/
def ngxStreamUpstreamInitChash (qsort : ChashSort) (palloc : UInt64 → Bool) (conf : UpstreamConf) :
    Option (Upstream × List ChashPoint) :=
  (ngxStreamUpstreamInitRoundRobin conf).bind fun u =>
    if !palloc (chashSize (u.list .primary)) then none else some (u, thinPoints (qsort.sort (chashPoints (u.list .primary))))

/-! ### Thinning -/

theorem getD_set {α : Type} (l : List α) (k j : ℕ) (a d : α) :
    (l.set k a).getD j d = if k = j ∧ k < l.length then a else l.getD j d := by
  simp only [List.getD_eq_getElem?_getD, List.getElem?_set]
  by_cases hk : k = j
  · subst hk
    by_cases hlt : k < l.length
    · simp [hlt]
    · simp [hlt]
  · simp [hk]

theorem hash_eq_iff {p q : ChashPoint} : p.hash = q.hash ↔ p.place = q.place := UInt32.toNat_inj.symm

/-- What the loop has done when it has gone through the first `m + 1` points. -/
structure Thinned (point : List ChashPoint) (m : ℕ) (st : List ChashPoint × ℕ) : Prop where
  length : st.1.length = point.length
  le : st.2 ≤ m
  rest : ∀ k, m < k → st.1.getD k default = point.getD k default
  increasing : ∀ a b, a < b → b ≤ st.2 → (st.1.getD a default).place < (st.1.getD b default).place
  last : (st.1.getD st.2 default).place = (point.getD m default).place
  mem : ∀ a, a ≤ st.2 → ∃ q, q ≤ m ∧ st.1.getD a default = point.getD q default
  covers : ∀ q, q ≤ m → ∃ a, a ≤ st.2 ∧ (st.1.getD a default).place = (point.getD q default).place

theorem Thinned.start (point : List ChashPoint) : Thinned point 0 (point, 0) where
  length := rfl
  le := le_rfl
  rest := fun _ _ => rfl
  increasing := fun a b hab hb => absurd (Nat.lt_of_lt_of_le hab hb) (Nat.not_lt_zero a)
  last := rfl
  mem := fun a ha => ⟨0, le_rfl, by rw [Nat.le_zero.mp ha]⟩
  covers := fun q hq => ⟨0, le_rfl, by rw [Nat.le_zero.mp hq]⟩

theorem Thinned.step {point : List ChashPoint} {m : ℕ} {st : List ChashPoint × ℕ} (h : Thinned point m st)
    (hm : m + 1 < point.length)
    (hsorted : (point.getD m default).place ≤ (point.getD (m + 1) default).place) :
    Thinned point (m + 1) (thinStep st (m + 1)) := by
  have hnext := h.rest (m + 1) (Nat.lt_succ_self m)
  have hsame : (st.1.getD st.2 default).hash = (point.getD (m + 1) default).hash ↔
      (point.getD m default).place = (point.getD (m + 1) default).place := by
    rw [hash_eq_iff, h.last]
  rw [thinStep, hnext]
  by_cases heq : (point.getD m default).place = (point.getD (m + 1) default).place
  · rw [if_neg (not_not.mpr (hsame.mpr heq))]
    refine ⟨h.length, Nat.le_succ_of_le h.le, fun k hk => h.rest k (Nat.lt_of_succ_lt hk), h.increasing,
      h.last.trans heq, fun a ha => ?_, fun q hq => ?_⟩
    · obtain ⟨q, hq, hpoint⟩ := h.mem a ha
      exact ⟨q, Nat.le_succ_of_le hq, hpoint⟩
    · rcases Nat.lt_or_eq_of_le hq with hlt | rfl
      · exact h.covers q (Nat.le_of_lt_succ hlt)
      · exact ⟨st.2, le_rfl, h.last.trans heq⟩
  · have hlt : (point.getD m default).place < (point.getD (m + 1) default).place := lt_of_le_of_ne hsorted heq
    have hle := h.le
    have hlen := h.length
    have hnew : (st.1.set (st.2 + 1) (point.getD (m + 1) default)).getD (st.2 + 1) default =
        point.getD (m + 1) default := by
      rw [getD_set, if_pos ⟨rfl, by omega⟩]
    have hold {a : ℕ} (ha : a ≤ st.2) : (st.1.set (st.2 + 1) (point.getD (m + 1) default)).getD a default =
        st.1.getD a default := by
      rw [getD_set, if_neg (by omega)]
    rw [if_pos (mt hsame.mp heq)]
    refine ⟨?_, by omega, fun k hk => ?_, fun a b hab hb => ?_, ?_, fun a ha => ?_, fun q hq => ?_⟩
    · rw [List.length_set, hlen]
    · dsimp only
      rw [getD_set, if_neg (by omega), h.rest k (by omega)]
    · dsimp only at hb ⊢
      rcases Nat.lt_or_eq_of_le hb with hb | rfl
      · rw [hold (by omega), hold (by omega)]
        exact h.increasing a b hab (by omega)
      · rw [hnew, hold (by omega)]
        refine lt_of_le_of_lt ?_ hlt
        rw [← h.last]
        rcases Nat.lt_or_eq_of_le (Nat.le_of_lt_succ hab) with ha | rfl
        · exact (h.increasing a st.2 ha le_rfl).le
        · exact le_rfl
    · dsimp only
      rw [hnew]
    · dsimp only at ha ⊢
      rcases Nat.lt_or_eq_of_le ha with ha | rfl
      · obtain ⟨q, hq, hsame⟩ := h.mem a (by omega)
        exact ⟨q, by omega, by rw [hold (by omega), hsame]⟩
      · exact ⟨m + 1, le_rfl, hnew⟩
    · dsimp only
      rcases Nat.lt_or_eq_of_le hq with hlt | rfl
      · obtain ⟨a, ha, hsame⟩ := h.covers q (by omega)
        exact ⟨a, by omega, by rw [hold ha, hsame]⟩
      · exact ⟨st.2 + 1, le_rfl, by rw [hnew]⟩

theorem Thinned.foldl {point : List ChashPoint} (hsorted : point.Pairwise fun p q => p.place ≤ q.place) {m : ℕ}
    (hm : m < point.length) : Thinned point m ((List.range' 1 m).foldl thinStep (point, 0)) := by
  induction m with
  | zero => exact Thinned.start point
  | succ m ih =>
    rw [List.range'_1_concat, List.foldl_append, Nat.add_comm 1 m]
    refine (ih (by omega)).step hm ?_
    rw [List.getD_eq_getElem _ _ (by omega), List.getD_eq_getElem _ _ hm]
    exact List.pairwise_iff_getElem.mp hsorted m (m + 1) (by omega) hm (Nat.lt_succ_self m)

/-- The points that are kept are a ring of all points. -/
theorem ring_thinPoints {point : List ChashPoint} (hsorted : point.Pairwise fun p q => p.place ≤ q.place)
    (hne : point ≠ []) : RingList ChashPoint.place {p | p ∈ point} (thinPoints point) := by
  have hpos : 0 < point.length := List.length_pos_iff.mpr hne
  have h := Thinned.foldl hsorted (show point.length - 1 < point.length by omega)
  rw [thinPoints]
  generalize (List.range' 1 (point.length - 1)).foldl thinStep (point, 0) = st at h ⊢
  have hle := h.le
  have hlen := h.length
  have hget {a : ℕ} (ha : a < (st.1.take (st.2 + 1)).length) :
      (st.1.take (st.2 + 1))[a] = st.1.getD a default ∧ a ≤ st.2 := by
    rw [List.length_take] at ha
    rw [List.getElem_take, List.getD_eq_getElem _ _ (by omega)]
    exact ⟨rfl, by omega⟩
  refine ⟨List.pairwise_iff_getElem.mpr fun a b ha hb hab => ?_, fun p hp => ?_, fun p hp => ?_⟩
  · rw [(hget ha).1, (hget hb).1]
    exact h.increasing a b hab (hget hb).2
  · obtain ⟨a, ha, rfl⟩ := List.mem_iff_getElem.mp hp
    obtain ⟨q, hq, hsame⟩ := h.mem a (hget ha).2
    rw [(hget ha).1, hsame, List.getD_eq_getElem _ _ (by omega)]
    exact List.getElem_mem _
  · obtain ⟨q, hq, rfl⟩ := List.mem_iff_getElem.mp hp
    obtain ⟨a, ha, hsame⟩ := h.covers q (by omega)
    have hin : a < (st.1.take (st.2 + 1)).length := by
      rw [List.length_take]
      omega
    refine ⟨(st.1.take (st.2 + 1))[a], List.getElem_mem hin, ?_⟩
    rw [(hget hin).1, hsame, List.getD_eq_getElem _ _ hq]

/-! ### The search -/

/-- The search finds the first point that is not before the hash; an equal one is the first, as all are different. -/
theorem findChashPoint_foundAt {points : List ChashPoint} {hash : UInt32}
    (hsorted : points.Pairwise fun p q => p.place < q.place) {left i j : ℕ} (hleft : j - i ≤ left)
    (hij : i ≤ j) (hj : j ≤ points.length)
    (hbelow : ∀ k (hk : k < points.length), k < i → (points.get ⟨k, hk⟩).place < hash.toNat)
    (habove : ∀ k (hk : k < points.length), j ≤ k → hash.toNat ≤ (points.get ⟨k, hk⟩).place) :
    FoundAt ChashPoint.place points hash.toNat (findChashPoint points hash left i j) := by
  have hmono {a b : ℕ} (ha : a < points.length) (hb : b < points.length) (hab : a < b) :
      (points.get ⟨a, ha⟩).place < (points.get ⟨b, hb⟩).place :=
    List.pairwise_iff_get.mp hsorted ⟨a, ha⟩ ⟨b, hb⟩ hab
  have hdone {i : ℕ} (hi : i ≤ points.length)
      (hbelow : ∀ k (hk : k < points.length), k < i → (points.get ⟨k, hk⟩).place < hash.toNat)
      (habove : ∀ k (hk : k < points.length), i ≤ k → hash.toNat ≤ (points.get ⟨k, hk⟩).place) :
      FoundAt ChashPoint.place points hash.toNat i :=
    ⟨hi, fun k hk => ⟨fun hlt => not_le.mp fun hle => absurd hlt (not_lt.mpr (habove k hk hle)), hbelow k hk⟩⟩
  induction left generalizing i j with
  | zero =>
    have heq : i = j := by omega
    subst heq
    exact hdone hj hbelow habove
  | succ left ih =>
    rw [findChashPoint]
    by_cases hlt : i < j
    case neg =>
      have heq : i = j := by omega
      subst heq
      rw [if_neg hlt]
      exact hdone hj hbelow habove
    rw [if_pos hlt]
    have hk : (i + j) / 2 < points.length := by omega
    dsimp only
    rw [List.getD_eq_getElem _ _ hk]
    have hget : points[(i + j) / 2] = points.get ⟨(i + j) / 2, hk⟩ := rfl
    rw [hget]
    rcases lt_trichotomy (points.get ⟨(i + j) / 2, hk⟩).place hash.toNat with hbefore | hat | hafter
    · rw [if_pos (UInt32.lt_iff_toNat_lt.mpr hbefore)]
      refine ih (by omega) (by omega) hj (fun k hk' hki => ?_) habove
      rcases Nat.lt_or_eq_of_le (Nat.le_of_lt_succ hki) with hki | rfl
      · exact (hmono hk' hk hki).trans hbefore
      · exact hbefore
    · rw [if_neg fun h => absurd (UInt32.lt_iff_toNat_lt.mp h) (by rw [← hat]; exact lt_irrefl _),
        if_neg fun h => absurd (UInt32.lt_iff_toNat_lt.mp h) (by rw [← hat]; exact lt_irrefl _)]
      refine hdone hk.le (fun k hk' hki => ?_) fun k hk' hki => ?_
      · rw [← hat]
        exact hmono hk' hk hki
      · rw [← hat]
        rcases Nat.lt_or_eq_of_le hki with hki | rfl
        · exact (hmono hk hk' hki).le
        · exact le_rfl
    · rw [if_neg fun h => absurd (UInt32.lt_iff_toNat_lt.mp h) (not_lt.mpr hafter.le),
        if_pos (UInt32.lt_iff_toNat_lt.mpr hafter)]
      refine ih (by omega) (by omega) hk.le hbelow fun k hk' hki => ?_
      rcases Nat.lt_or_eq_of_le hki with hki | rfl
      · exact hafter.le.trans (hmono hk hk' hki).le
      · exact hafter.le

theorem ngxStreamUpstreamFindChashPoint_foundAt {points : List ChashPoint} {hash : UInt32}
    (hsorted : points.Pairwise fun p q => p.place < q.place) :
    FoundAt ChashPoint.place points hash.toNat (ngxStreamUpstreamFindChashPoint points hash) :=
  findChashPoint_foundAt hsorted (Nat.sub_le _ _) (Nat.zero_le _) le_rfl (fun _ _ hk => absurd hk (Nat.not_lt_zero _))
    fun _ hk hle => absurd hk (not_lt.mpr hle)

/-- The index fits into the 32 bits that it is kept in: points of different hashes before it are all below the hash. -/
theorem foundAt_lt_size {points : List ChashPoint} {hash : UInt32} {i : ℕ}
    (hsorted : points.Pairwise fun p q => p.place < q.place) (hi : FoundAt ChashPoint.place points hash.toNat i) :
    i < 2 ^ 32 := by
  have hplace (k : ℕ) (hk : k < points.length) : k ≤ (points.get ⟨k, hk⟩).place := by
    induction k with
    | zero => exact Nat.zero_le _
    | succ k ih =>
      have hlt := List.pairwise_iff_get.mp hsorted ⟨k, by omega⟩ ⟨k + 1, hk⟩ (Nat.lt_succ_self k)
      have hle := ih (by omega)
      omega
  have hsize := hash.toNat_lt
  obtain ⟨hle, hfound⟩ := hi
  cases i with
  | zero => omega
  | succ k =>
    have hlt := (hfound k hle).mpr (Nat.lt_succ_self k)
    have hk := hplace k hle
    omega

/-! ### The servers of the points -/

/-- The points of the peers of a list, as a set. -/
def pointsOf (l : RrPeers) : Set ChashPoint := {p | p ∈ chashPoints l}

theorem server_of_mem_peerPoints {peer : RrPeer} {p : ChashPoint} (hp : p ∈ peerPoints peer) :
    p.server = peer.server := by
  obtain ⟨hash, -, rfl⟩ := List.mem_map.mp hp
  rfl

theorem mem_pointsOf {l : RrPeers} {p : ChashPoint} : p ∈ pointsOf l ↔ ∃ i, i < l.number ∧ p ∈ peerPoints (l.peer i) := by
  simp [pointsOf, chashPoints]

theorem chashHashes_length (base : UInt32) (n : ℕ) (prev : UInt32) : (chashHashes base n prev).length = n := by
  induction n generalizing prev with
  | zero => rfl
  | succ n ih => rw [chashHashes, List.length_cons, ih]

/-- A lower weight has the first of the points. -/
theorem chashHashes_prefix (base : UInt32) {n n' : ℕ} (hn : n' ≤ n) (prev : UInt32) :
    chashHashes base n' prev <+: chashHashes base n prev := by
  induction n' generalizing n prev with
  | zero => exact List.nil_prefix
  | succ n' ih =>
    obtain ⟨n, rfl⟩ := Nat.exists_eq_add_one.mpr (Nat.lt_of_lt_of_le (Nat.succ_pos n') hn)
    exact List.cons_prefix_cons.mpr ⟨rfl, ih (Nat.le_of_succ_le_succ hn) _⟩

theorem npointsOf_toNat {peer : RrPeer} (hlt : peer.weight * 160 < 2 ^ 60) : (npointsOf peer).toNat = peer.weight * 160 := by
  rw [npointsOf, UInt64.toNat_mul, UInt64.toNat_ofNat']
  change peer.weight % 2 ^ 64 * 160 % 2 ^ 64 = _
  omega

theorem peerPoints_subset {peer peer' : RrPeer} (hserver : peer'.server = peer.server) (hweight : peer'.weight ≤ peer.weight)
    (hlt : peer.weight * 160 < 2 ^ 60) {p : ChashPoint} (hp : p ∈ peerPoints peer') : p ∈ peerPoints peer := by
  have hle : (npointsOf peer').toNat ≤ (npointsOf peer).toNat := by
    rw [npointsOf_toNat hlt, npointsOf_toNat (by omega)]
    omega
  rw [peerPoints, hserver] at hp
  obtain ⟨hash, hhash, rfl⟩ := List.mem_map.mp hp
  exact List.mem_map.mpr ⟨hash, List.IsPrefix.subset ( chashHashes_prefix _ hle 0) hhash, rfl⟩

theorem mem_pointsOf_rrPeersOf {servers : List StreamUpstreamServer} {single : Bool} {p : ChashPoint} :
    p ∈ pointsOf (rrPeersOf servers single) ↔ ∃ s ∈ servers, 0 < s.naddrs ∧ p ∈ peerPoints (rrPeerOf s) := by
  rw [mem_pointsOf, rrPeersOf_number]
  simp only [rrPeersOf_peer]
  constructor
  · rintro ⟨i, hi, hp⟩
    rw [List.getD_eq_getElem _ _ hi] at hp
    obtain ⟨s, hs, hpeer⟩ := List.mem_flatMap.mp (List.getElem_mem hi)
    obtain ⟨hpos, heq⟩ := List.mem_replicate.mp hpeer
    rw [heq] at hp
    exact ⟨s, hs, Nat.pos_of_ne_zero hpos, hp⟩
  · rintro ⟨s, hs, hpos, hp⟩
    have hmem : rrPeerOf s ∈ rrPeerList servers :=
      List.mem_flatMap.mpr ⟨s, hs, List.mem_replicate.mpr ⟨Nat.pos_iff_ne_zero.mp hpos, rfl⟩⟩
    obtain ⟨i, hi, heq⟩ := List.mem_iff_getElem.mp hmem
    exact ⟨i, hi, by rwa [List.getD_eq_getElem _ _ hi, heq]⟩

theorem initRoundRobin_primary {servers : List StreamUpstreamServer} {u : Upstream}
    (h : ngxStreamUpstreamInitRoundRobin (.servers servers) = some u) :
    ∃ single, u.list .primary = rrPeersOf (servers.filter fun s => !s.backup) single := by
  simp only [ngxStreamUpstreamInitRoundRobin] at h
  split_ifs at h
  · obtain rfl := Option.some_inj.mp h
    exact ⟨_, rfl⟩
  · obtain rfl := Option.some_inj.mp h
    exact ⟨_, rfl⟩

theorem mem_pointsOf_init {servers : List StreamUpstreamServer} {u : Upstream}
    (h : ngxStreamUpstreamInitRoundRobin (.servers servers) = some u) {p : ChashPoint} :
    p ∈ pointsOf (u.list .primary) ↔ ∃ s ∈ servers, s.backup = false ∧ 0 < s.naddrs ∧ p ∈ peerPoints (rrPeerOf s) := by
  obtain ⟨single, heq⟩ := initRoundRobin_primary h
  rw [heq, mem_pointsOf_rrPeersOf]
  simp only [List.mem_filter, Bool.not_eq_true', and_assoc]

theorem weight_le_totalWeight {servers : List StreamUpstreamServer} {u : Upstream}
    (h : ngxStreamUpstreamInitRoundRobin (.servers servers) = some u) {s : StreamUpstreamServer} (hs : s ∈ servers)
    (hbackup : s.backup = false) (hpos : 0 < s.naddrs) : s.weight ≤ (u.list .primary).totalWeight := by
  obtain ⟨single, heq⟩ := initRoundRobin_primary h
  rw [heq]
  have hmem : s.naddrs * s.weight ∈ (servers.filter fun s => !s.backup).map fun s => s.naddrs * s.weight :=
    List.mem_map.mpr ⟨s, List.mem_filter.mpr ⟨hs, by rw [hbackup]; rfl⟩, rfl⟩
  exact (Nat.le_mul_of_pos_left s.weight hpos).trans (List.le_sum_of_mem hmem)

theorem weight_le_total {u : Upstream} (hwf : u.Wf) {i : ℕ} (hi : i < (u.list .primary).number) :
    ((u.list .primary).peer i).weight ≤ (u.list .primary).totalWeight := by
  rw [hwf.totalWeight_eq .primary]
  exact Finset.single_le_sum (f := fun i => ((u.list .primary).peer i).weight) (fun _ _ => Nat.zero_le _)
    (Finset.mem_range.mpr hi)

theorem chashPoints_length {u : Upstream} (hwf : u.Wf) (hfits : (u.list .primary).totalWeight * 160 < 2 ^ 60) :
    (chashPoints (u.list .primary)).length = (u.list .primary).totalWeight * 160 := by
  have hpeer : ∀ i ∈ Finset.range (u.list .primary).number,
      (peerPoints ((u.list .primary).peer i)).length = ((u.list .primary).peer i).weight * 160 := by
    intro i hi
    have hle := weight_le_total hwf (Finset.mem_range.mp hi)
    rw [peerPoints, List.length_map, chashHashes_length, npointsOf_toNat (by omega)]
  rw [chashPoints, List.length_flatMap]
  change ∑ i ∈ Finset.range (u.list .primary).number, (peerPoints ((u.list .primary).peer i)).length = _
  rw [Finset.sum_congr rfl hpeer, ← Finset.sum_mul, ← hwf.totalWeight_eq .primary]

/-- There are points, and they are written inside what is allocated for them. -/
theorem chashPoints_fit {u : Upstream} (hwf : u.Wf) (hfits : (u.list .primary).totalWeight * 160 < 2 ^ 60) :
    chashPoints (u.list .primary) ≠ [] ∧
      8 + 16 * (chashPoints (u.list .primary)).length = (chashSize (u.list .primary)).toNat := by
  have hlength := chashPoints_length hwf hfits
  have hpos := (hwf.weight_pos .primary 0 hwf.primary_pos).trans_le (weight_le_total hwf hwf.primary_pos)
  constructor
  · rw [← List.length_pos_iff, hlength]
    omega
  · have hnpoints : (UInt64.ofNat (u.list .primary).totalWeight * 160).toNat = (u.list .primary).totalWeight * 160 := by
      rw [UInt64.toNat_mul, UInt64.toNat_ofNat']
      change (u.list .primary).totalWeight % 2 ^ 64 * 160 % 2 ^ 64 = _
      omega
    rw [hlength, chashSize, UInt64.toNat_add, UInt64.toNat_mul, UInt64.toNat_sub, hnpoints]
    change _ = (24 + 16 * ((2 ^ 64 - 1 + (u.list .primary).totalWeight * 160) % 2 ^ 64) % 2 ^ 64) % 2 ^ 64
    omega

theorem initChash_some {qsort : ChashSort} {palloc : UInt64 → Bool} {conf : UpstreamConf} {u : Upstream}
    {points : List ChashPoint} (h : ngxStreamUpstreamInitChash qsort palloc conf = some (u, points)) :
    ngxStreamUpstreamInitRoundRobin conf = some u ∧ points = thinPoints (qsort.sort (chashPoints (u.list .primary))) := by
  obtain ⟨u', hu', hpoints⟩ := Option.bind_eq_some_iff.mp h
  split_ifs at hpoints
  cases hpoints
  exact ⟨hu', rfl⟩

/-- The points of the configuration are a ring of the points of all peers. -/
theorem ringList_initChash {qsort : ChashSort} {palloc : UInt64 → Bool} {conf : UpstreamConf} {u : Upstream}
    {points : List ChashPoint} (h : ngxStreamUpstreamInitChash qsort palloc conf = some (u, points))
    (hsome : chashPoints (u.list .primary) ≠ []) :
    RingList ChashPoint.place (pointsOf (u.list .primary)) points ∧ 0 < points.length := by
  obtain ⟨hu, rfl⟩ := initChash_some h
  have hperm := qsort.perm (chashPoints (u.list .primary))
  obtain ⟨p, hp⟩ := List.exists_mem_of_ne_nil _ hsome
  have hne : qsort.sort (chashPoints (u.list .primary)) ≠ [] := List.ne_nil_of_mem (hperm.mem_iff.mpr hp)
  have hring := ring_thinPoints (qsort.sorted (chashPoints (u.list .primary))) hne
  have hsame : {p | p ∈ qsort.sort (chashPoints (u.list .primary))} = pointsOf (u.list .primary) := by
    ext p
    exact hperm.mem_iff
  rw [hsame] at hring
  refine ⟨hring, ?_⟩
  obtain ⟨q, hq, -⟩ := hring.covers p hp
  exact List.length_pos_of_mem hq

/-! ### The servers of the peers -/

/-- The peers of an upstream have the servers that they had. -/
def Upstream.SameServers (u u' : Upstream) : Prop := ∀ side i, ((u'.list side).peer i).server = ((u.list side).peer i).server

theorem Upstream.sameServers_modify {u u' : Upstream} (h : u.SameServers u') (side : Tier) {f : RrPeers → RrPeers}
    (hf : ∀ i, ((f (u'.list side)).peer i).server = ((u'.list side).peer i).server) : u.SameServers (u'.modify side f) := by
  intro side' i
  rw [← h side' i, Upstream.modify]
  by_cases hside : side' = side
  · subst hside
    simp only [Function.update_self]
    exact hf i
  · simp only [Function.update_of_ne hside]

theorem RrPeers.server_modify (l : RrPeers) (p : ℕ) {f : RrPeer → RrPeer} (hf : ∀ peer, (f peer).server = peer.server)
    (i : ℕ) : ((l.modify p f).peer i).server = (l.peer i).server := by
  by_cases hi : i = p
  · subst hi
    simp [RrPeers.modify, hf]
  · simp [RrPeers.modify, hi]

theorem RrPeer.check_server (peer : RrPeer) (now : ℤ) : (peer.check now).server = peer.server := by
  rw [RrPeer.check]
  split <;> rfl

theorem server_served (l : RrPeers) (E : Finset ℕ) (p : ℕ) (now : ℤ) (i : ℕ) :
    ((served l E p now).peer i).server = (l.peer i).server := by
  simp only [served]
  split <;> split <;> simp [RrPeer.connect, RrPeer.pay, RrPeer.gain, RrPeer.check_server]

theorem Takes.sameServers {now : ℤ} {u u' : Upstream} {rrp rrp' : RrPeerData} {p : ℕ}
    (h : Takes now u rrp p u' rrp') : u.SameServers u' := by
  obtain ⟨f, heq, hf | ⟨E, -, hf⟩⟩ := h.cases_list
  · rw [heq]
    refine Upstream.sameServers_modify (fun _ _ => rfl) _ fun i => ?_
    rw [hf]
    exact @RrPeers.server_modify (u.list rrp.peers) p RrPeer.connect (fun _ => rfl) i
  · rw [heq]
    refine Upstream.sameServers_modify (fun _ _ => rfl) _ fun i => ?_
    rw [hf]
    exact server_served _ E p now i

theorem Selects.sameServers {now : ℤ} {u : Upstream} {rrp : RrPeerData} {got : Got} (h : Selects now u rrp got) :
    u.SameServers got.2.1 := by
  cases h with
  | took h => exact h.sameServers
  | tookBackup hside hnext hnone h => exact h.sameServers
  | busy => exact fun _ _ => rfl
  | busyBackup hside hnext hnone => exact fun _ _ => rfl

theorem RrPeer.freed_server (single failed : Bool) (now : ℤ) (peer : RrPeer) :
    (peer.freed single failed now).server = peer.server := by
  obtain h | h := peer.live_eq <;> cases single <;> cases failed <;> simp [freed, disconnect, fail, h]

/-- A step keeps the servers of the peers. -/
theorem Balancer.step_sameServers {u₀ : Upstream} (hwf : u₀.Wf) {b : Balancer} (hinv : BalancerInv u₀ b)
    (h : u₀.SameServers b.upstream) (e : BalancerEvent) : u₀.SameServers (b.step e).upstream := by
  cases e with
  | start s method key => exact h
  | get s m =>
    simp only [Balancer.step]
    cases hs : b.sessions s with
    | none => exact h
    | some session =>
      have hchooses := peerGet_chooses (hwf.keeps hinv.keeps) session.method b.points m (hinv.settled s session hs)
      exact fun side i => (hchooses.selects.sameServers side i).trans (h side i)
  | free s failed now =>
    simp only [Balancer.step]
    cases hs : b.sessions s with
    | none => exact h
    | some session =>
      dsimp only
      rw [ngxStreamUpstreamFreeRoundRobinPeer_fst]
      cases session.data.rrp.current with
      | none => exact h
      | some held =>
        exact Upstream.sameServers_modify h held.1 (RrPeers.server_modify _ held.2 (RrPeer.freed_server _ failed now))
  | notify s =>
    simp only [Balancer.step]
    cases hs : b.sessions s with
    | none => exact h
    | some session =>
      dsimp only
      rw [ngxStreamUpstreamNotifyRoundRobinPeer]
      cases session.data.rrp.current with
      | none => exact h
      | some held =>
        refine Upstream.sameServers_modify h held.1 (RrPeers.server_modify _ held.2 fun peer => ?_)
        obtain hlive | hlive := peer.live_eq <;> rw [hlive]
  | setDown side p down =>
    exact @Upstream.sameServers_modify u₀ b.upstream h side (·.modify p fun peer => { peer with down := down })
      (@RrPeers.server_modify (b.upstream.list side) p (fun peer => { peer with down := down }) fun _ => rfl)

/-- In every state of every run the peers are those of the configuration. -/
theorem balancer_sameServers {conf : UpstreamConf} {u : Upstream} (hconf : ngxStreamUpstreamInitRoundRobin conf = some u)
    (points : List ChashPoint) (events : List BalancerEvent) :
    let b := run Balancer.step (Balancer.start points u) events
    u.Keeps b.upstream ∧ u.SameServers b.upstream := by
  obtain ⟨hwf, hfresh⟩ := ngxStreamUpstreamInitRoundRobin_spec hconf
  have hstart : BalancerInv u (Balancer.start points u) :=
    ⟨.refl u, fun side => (hfresh side).balanced, by intro s session hs; cases hs⟩
  have hinv := run_induction (I := fun b => BalancerInv u b ∧ u.SameServers b.upstream)
    (fun b e h => ⟨h.1.step hwf e, b.step_sameServers hwf h.1 h.2 e⟩) ⟨hstart, fun _ _ => rfl⟩ events
  exact ⟨hinv.1.keeps, hinv.2⟩

/-! ### The selection -/

/-- The server of the peer that a new session with the key selects first. -/
def chosenServer (points : List ChashPoint) (m : Moment) (u : Upstream) (key : List UInt8) : Option (List UInt8) :=
  let got := peerGet .consistentHash points m u (peerInit .consistentHash points u key).1
  if got.1 = .ok then got.2.2.rrp.current.map fun held => ((u.list held.1).peer held.2).server else none

/-- `ngx_crc32_long` of the key. -/
def keyPlace (key : List UInt8) : ℕ := (ngxCrc32Final (ngxCrc32Update ngxCrc32Init key)).toNat

/-- Every peer of the primary list can be selected. -/
def AllEligible (m : Moment) (u : Upstream) : Prop :=
  ∀ i, i < (u.list .primary).number → ((u.list .primary).peer i).unavailable m.now = false

/-- A new session at a point of the ring selects a peer of the server of the point. -/
theorem chash_selects_server {points : List ChashPoint} {m : Moment} {u : Upstream} (hwf : u.Wf)
    (helig : AllEligible m u) {hp : PeerData} (hrrp : hp.rrp = (ngxStreamUpstreamInitRoundRobinPeer u).1)
    (htries : hp.tries = 0) (hkey : hp.key ≠ []) {k : ℕ} (hk : k < (u.list .primary).number)
    (hserver : (points.getD (hp.hash.toNat % points.length) default).server = ((u.list .primary).peer k).server) :
    ∃ q, (ngxStreamUpstreamGetChashPeer points m.now u hp).1 = .ok ∧
      (ngxStreamUpstreamGetChashPeer points m.now u hp).2.2.rrp.current = some (.primary, q) ∧
      ((u.list .primary).peer q).server = ((u.list .primary).peer k).server := by
  have hside : hp.rrp.peers = .primary := by rw [hrrp]; rfl
  rw [ngxStreamUpstreamGetChashPeer, hside]
  by_cases hsingle : (u.list .primary).single = true
  · -- the only peer of the list is `k`
    have hzero : k = 0 := by
      have hone := (hwf.single .primary hsingle).1
      omega
    subst hzero
    have hup := helig 0 hk
    simp only [RrPeer.unavailable, Bool.or_eq_false_iff] at hup
    rw [if_pos (Or.inr (Or.inl hsingle))]
    have hfree : (((u.list .primary).peer 0).down || (((u.list .primary).peer 0).maxConns ≠ 0 &&
        (((u.list .primary).peer 0).maxConns : ℤ) ≤ ((u.list .primary).peer 0).conns)) = false := by
      rw [hup.1.1, hup.2]
      rfl
    have hgot : ngxStreamUpstreamGetRoundRobinPeer m.now u hp.rrp =
        (.ok, u.modify .primary (·.modify 0 (·.connect)), { hp.rrp with current := some (.primary, 0) }) := by
      rw [ngxStreamUpstreamGetRoundRobinPeer, getRoundRobinPeer, hside]
      dsimp only
      rw [if_pos hsingle, if_neg (by rw [hfree]; exact Bool.false_ne_true), hside]
    rw [PeerData.getRrPeer, hgot]
    exact ⟨0, rfl, rfl, rfl⟩
  · rw [if_neg (by rintro (h | h | h); exacts [absurd h (by omega), hsingle h, hkey h]), htries]
    have hnot : (weighList (fun i peer => skipped hp.rrp.tried m.now i peer ||
        peer.server ≠ (points.getD (hp.hash.toNat % points.length) default).server) (u.list .primary)).best ≠ none := by
      intro hnone
      have hskip := weighList_none hnone hk
      rw [hserver, skipped, hrrp, triedBit_init, helig k hk] at hskip
      simp at hskip
    obtain ⟨q, hq⟩ := Option.ne_none_iff_exists'.mp hnot
    obtain ⟨-, hskip, -⟩ := weighList_best hq
    simp only [Bool.or_eq_false_iff, decide_eq_false_iff_not, ne_eq, not_not] at hskip
    rw [passes, chashPass, hside, hq]
    exact ⟨q, rfl, congrArg (fun side => some (side, q)) hside, hskip.2.trans hserver⟩

/-- The owner of the key has the first connection of the session. -/
theorem chosenServer_owns {qsort : ChashSort} {palloc : UInt64 → Bool} {conf : UpstreamConf} {u₀ u : Upstream}
    {points : List ChashPoint} (hinit : ngxStreamUpstreamInitChash qsort palloc conf = some (u₀, points))
    (hsome : chashPoints (u₀.list .primary) ≠ []) (hkeeps : u₀.Keeps u) (hsame : u₀.SameServers u) {m : Moment}
    (helig : AllEligible m u) {key : List UInt8}
    (hkey : key ≠ []) :
    ∃ s, chosenServer points m u key = some s ∧
      Owns ChashPoint.place ChashPoint.server (pointsOf (u₀.list .primary)) (keyPlace key) s := by
  obtain ⟨hring, hpos⟩ := ringList_initChash hinit hsome
  obtain ⟨hwf₀, -⟩ := ngxStreamUpstreamInitRoundRobin_spec (initChash_some hinit).1
  have hfound := @ngxStreamUpstreamFindChashPoint_foundAt points (ngxCrc32Final (ngxCrc32Update ngxCrc32Init key))
    hring.sorted
  have hindex : (UInt32.ofNat (ngxStreamUpstreamFindChashPoint points
      (ngxCrc32Final (ngxCrc32Update ngxCrc32Init key)))).toNat =
        ngxStreamUpstreamFindChashPoint points (ngxCrc32Final (ngxCrc32Update ngxCrc32Init key)) := by
    rw [UInt32.toNat_ofNat', Nat.mod_eq_of_lt (foundAt_lt_size hring.sorted hfound)]
  have hmod := Nat.mod_lt (ngxStreamUpstreamFindChashPoint points (ngxCrc32Final (ngxCrc32Update ngxCrc32Init key))) hpos
  have hfirst := hring.first hfound hmod
  obtain ⟨k, hk, hmem⟩ := mem_pointsOf.mp hfirst.1
  have hserver := (server_of_mem_peerPoints hmem).trans (hsame .primary k).symm
  obtain ⟨q, hok, hcurrent, hq⟩ := @chash_selects_server points m u (hwf₀.keeps hkeeps) helig
    (peerInit .consistentHash points u key).1 rfl rfl hkey k (by rwa [(hkeeps.list .primary).number_eq])
    (by rw [peerInit]; dsimp only; rw [hindex, List.getD_eq_getElem _ _ hmod]; exact hserver)
  refine ⟨_, ?_, _, hfirst, rfl⟩
  rw [chosenServer, hserver, ← hq]
  rw [if_pos (by exact hok)]
  exact congrArg (Option.map _) hcurrent

/-! ### Servers taken away -/

/-- Servers of which some with the name `x` are removed or have a lower weight. -/
inductive Reduced (x : List UInt8) : List StreamUpstreamServer → List StreamUpstreamServer → Prop where
  | nil : Reduced x [] []
  | kept (s : StreamUpstreamServer) {l l' : List StreamUpstreamServer} (h : Reduced x l l') : Reduced x (s :: l) (s :: l')
  | removed (s : StreamUpstreamServer) (hs : s.name = x) {l l' : List StreamUpstreamServer} (h : Reduced x l l') :
      Reduced x (s :: l) l'
  | lowered (s : StreamUpstreamServer) (hs : s.name = x) (w : ℕ) (hw : 0 < w) (hle : w ≤ s.weight)
      {l l' : List StreamUpstreamServer} (h : Reduced x l l') :
      Reduced x (s :: l) ({ s with weight := w, weight_pos := hw, weight_lt := hle.trans_lt s.weight_lt } :: l')

theorem Reduced.exists_mem {x : List UInt8} {l l' : List StreamUpstreamServer} (h : Reduced x l l')
    {s' : StreamUpstreamServer} (hs' : s' ∈ l') :
    ∃ s ∈ l, s.name = s'.name ∧ s.backup = s'.backup ∧ s.naddrs = s'.naddrs ∧ s'.weight ≤ s.weight := by
  induction h with
  | nil => exact absurd hs' List.not_mem_nil
  | kept s h ih =>
    rcases List.mem_cons.mp hs' with rfl | hs'
    · exact ⟨s', List.mem_cons_self, rfl, rfl, rfl, le_rfl⟩
    · obtain ⟨t, ht, heq⟩ := ih hs'
      exact ⟨t, List.mem_cons_of_mem s ht, heq⟩
  | removed s hs h ih =>
    obtain ⟨t, ht, heq⟩ := ih hs'
    exact ⟨t, List.mem_cons_of_mem s ht, heq⟩
  | lowered s hs w hw hle h ih =>
    rcases List.mem_cons.mp hs' with rfl | hs'
    · exact ⟨s, List.mem_cons_self, rfl, rfl, rfl, hle⟩
    · obtain ⟨t, ht, heq⟩ := ih hs'
      exact ⟨t, List.mem_cons_of_mem s ht, heq⟩

theorem Reduced.mem {x : List UInt8} {l l' : List StreamUpstreamServer} (h : Reduced x l l') {s : StreamUpstreamServer}
    (hs : s ∈ l) (hname : s.name ≠ x) : s ∈ l' := by
  induction h with
  | nil => exact hs
  | kept t h ih =>
    rcases List.mem_cons.mp hs with rfl | hs
    · exact List.mem_cons_self
    · exact List.mem_cons_of_mem t (ih hs)
  | removed t ht h ih =>
    rcases List.mem_cons.mp hs with rfl | hs
    · exact absurd ht hname
    · exact ih hs
  | lowered t ht w hw hle h ih =>
    rcases List.mem_cons.mp hs with rfl | hs
    · exact absurd ht hname
    · exact List.mem_cons_of_mem _ (ih hs)

theorem Reduced.totalWeight_le {x : List UInt8} {l l' : List StreamUpstreamServer} (h : Reduced x l l') (single single' : Bool) :
    (rrPeersOf (l'.filter fun s => !s.backup) single').totalWeight ≤
      (rrPeersOf (l.filter fun s => !s.backup) single).totalWeight := by
  simp only [rrPeersOf]
  induction h with
  | nil => exact Nat.le_refl _
  | kept s h ih =>
    cases hs : s.backup <;> simp only [List.filter_cons, hs, Bool.not_false, Bool.not_true, Bool.false_eq_true, if_true,
      if_false, List.map_cons, List.sum_cons] <;> omega
  | removed s _ h ih =>
    cases hs : s.backup <;> simp only [List.filter_cons, hs, Bool.not_false, Bool.not_true, Bool.false_eq_true, if_true,
      if_false, List.map_cons, List.sum_cons] <;> omega
  | lowered s _ w hw hle h ih =>
    have hmul := Nat.mul_le_mul_left s.naddrs hle
    cases hs : s.backup <;> simp only [List.filter_cons, hs, Bool.not_false, Bool.not_true, Bool.false_eq_true, if_true,
      if_false, List.map_cons, List.sum_cons] <;> omega

section Reduction

variable {x : List UInt8} {servers servers' : List StreamUpstreamServer} {u u' : Upstream}

theorem Reduced.pointsOf_subset (h : Reduced x servers servers')
    (hu : ngxStreamUpstreamInitRoundRobin (.servers servers) = some u)
    (hu' : ngxStreamUpstreamInitRoundRobin (.servers servers') = some u')
    (hfits : (u.list .primary).totalWeight * 160 < 2 ^ 60) :
    pointsOf (u'.list .primary) ⊆ pointsOf (u.list .primary) := by
  intro p hp
  obtain ⟨s', hs', hbackup, hpos, hp⟩ := (mem_pointsOf_init hu').mp hp
  obtain ⟨s, hs, hname, hback, hnaddrs, hweight⟩ := h.exists_mem hs'
  have hle := weight_le_totalWeight hu hs (hback.trans hbackup) (by rwa [hnaddrs])
  refine (mem_pointsOf_init hu).mpr ⟨s, hs, hback.trans hbackup, by rwa [hnaddrs], ?_⟩
  exact @peerPoints_subset (rrPeerOf s) (rrPeerOf s') hname.symm hweight (show s.weight * 160 < 2 ^ 60 by omega) p hp

theorem Reduced.fits (h : Reduced x servers servers') (hu : ngxStreamUpstreamInitRoundRobin (.servers servers) = some u)
    (hu' : ngxStreamUpstreamInitRoundRobin (.servers servers') = some u')
    (hfits : (u.list .primary).totalWeight * 160 < 2 ^ 60) : (u'.list .primary).totalWeight * 160 < 2 ^ 60 := by
  obtain ⟨single, heq⟩ := initRoundRobin_primary hu
  obtain ⟨single', heq'⟩ := initRoundRobin_primary hu'
  have hle := h.totalWeight_le single single'
  rw [← heq, ← heq'] at hle
  omega

theorem Reduced.mem_pointsOf (h : Reduced x servers servers')
    (hu : ngxStreamUpstreamInitRoundRobin (.servers servers) = some u)
    (hu' : ngxStreamUpstreamInitRoundRobin (.servers servers') = some u') {p : ChashPoint}
    (hp : p ∈ pointsOf (u.list .primary)) (hname : p.server ≠ x) : p ∈ pointsOf (u'.list .primary) := by
  obtain ⟨s, hs, hbackup, hpos, hp⟩ := (mem_pointsOf_init hu).mp hp
  rw [server_of_mem_peerPoints hp] at hname
  exact (mem_pointsOf_init hu').mpr ⟨s, h.mem hs hname, hbackup, hpos, hp⟩

end Reduction

/-- While the size of the points is a word, they fit into their memory, and a key goes to the owner of the first point from
its hash on, in every state in which all peers can be selected. When a server is removed or its weight is lowered, a key
of another server goes where it went. -/
theorem consistent_hash (qsort : ChashSort) (palloc : UInt64 → Bool) (servers : List StreamUpstreamServer) (u₀ : Upstream)
    (points : List ChashPoint) (hinit : ngxStreamUpstreamInitChash qsort palloc (.servers servers) = some (u₀, points))
    (hfits : (u₀.list .primary).totalWeight * 160 < 2 ^ 60)
    (hclear : Clear ChashPoint.place ChashPoint.server (pointsOf (u₀.list .primary))) (events : List BalancerEvent)
    (m : Moment) (helig : AllEligible m (run Balancer.step (Balancer.start points u₀) events).upstream)
    (key : List UInt8) (hkey : key ≠ []) :
    8 + 16 * (chashPoints (u₀.list .primary)).length = (chashSize (u₀.list .primary)).toNat ∧
    ∃ s, chosenServer points m (run Balancer.step (Balancer.start points u₀) events).upstream key = some s ∧
      Owns ChashPoint.place ChashPoint.server (pointsOf (u₀.list .primary)) (keyPlace key) s ∧
        ∀ x servers', Reduced x servers servers' → s ≠ x →
          ∀ qsort' palloc' u₀' points', ngxStreamUpstreamInitChash qsort' palloc' (.servers servers') = some (u₀', points') →
            ∀ events' m', AllEligible m' (run Balancer.step (Balancer.start points' u₀') events').upstream →
              chosenServer points' m' (run Balancer.step (Balancer.start points' u₀') events').upstream key = some s := by
  obtain ⟨hkeeps, hsame⟩ := balancer_sameServers (initChash_some hinit).1 points events
  have hwf := (ngxStreamUpstreamInitRoundRobin_spec (initChash_some hinit).1).1
  obtain ⟨hsome, hfit⟩ := chashPoints_fit hwf hfits
  obtain ⟨s, hchosen, howns⟩ := chosenServer_owns hinit hsome hkeeps hsame helig hkey
  refine ⟨hfit, s, hchosen, howns, ?_⟩
  intro x servers' hreduced hs qsort' palloc' u₀' points' hinit' events' m' helig'
  obtain ⟨hkeeps', hsame'⟩ := balancer_sameServers (initChash_some hinit').1 points' events'
  have hsub := hreduced.pointsOf_subset (initChash_some hinit).1 (initChash_some hinit').1 hfits
  have hwf' := (ngxStreamUpstreamInitRoundRobin_spec (initChash_some hinit').1).1
  have hsome' := (chashPoints_fit hwf' (hreduced.fits (initChash_some hinit).1 (initChash_some hinit').1 hfits)).1
  obtain ⟨s', hchosen', howns'⟩ := chosenServer_owns hinit' hsome' hkeeps' hsame' helig' hkey
  have hkept := howns.of_subset hsub fun p hp hserver =>
    hreduced.mem_pointsOf (initChash_some hinit).1 (initChash_some hinit').1 hp (by rwa [hserver])
  rw [hchosen', howns'.unique (hclear.of_subset hsub) hkept]

/-- The sort of the points that keeps the order of equal ones. -/
def stableSort : ChashSort where
  sort := fun l => l.mergeSort fun p q => p.place ≤ q.place
  perm := fun l => List.mergeSort_perm l _
  sorted := fun l => by
    have h := @List.pairwise_mergeSort ChashPoint (fun p q => decide (p.place ≤ q.place))
      (fun p q r hpq hqr => by simp only [decide_eq_true_eq] at *; exact hpq.trans hqr)
      (fun p q => by simpa using le_total p.place q.place) l
    exact h.imp fun hle => of_decide_eq_true hle

/-- Two servers. -/
def serverA : StreamUpstreamServer := plainServer [97] 1 Nat.one_pos one_lt_word

def serverB : StreamUpstreamServer := plainServer [98] 1 Nat.one_pos one_lt_word

/-- The point is the first from the hash of the key on. -/
def FirstFrom (points : List ChashPoint) (key : List UInt8) (q : ChashPoint) : Prop :=
  keyPlace key ≤ q.place ∧ ∀ p ∈ points, keyPlace key ≤ p.place → q.place ≤ p.place

/-- A shift of the register, on naturals: with words the kernel would unfold every bit of them. -/
def crcBitNat (x : ℕ) : ℕ := x >>> 1 ^^^ x % 2 * 0xEDB88320

def crcByteNat (x byte : ℕ) : ℕ := crcBitNat^[8] (x ^^^ byte)

def hashNat (base prev : ℕ) : ℕ :=
  [prev % 256, prev >>> 8 % 256, prev >>> 16 % 256, prev >>> 24 % 256].foldl crcByteNat base ^^^ 0xffffffff

/-- The places of the points of `chashHashes`. -/
def placesNat (base : ℕ) : ℕ → ℕ → List ℕ
  | 0, _ => []
  | npoints + 1, prev => hashNat base prev :: placesNat base npoints (hashNat base prev)

theorem crcBit_toNat (x : BitVec 32) : (Crc.crcBit 0xEDB88320#32 x).toNat = crcBitNat x.toNat := by
  rw [Crc.crcBit, crcBitNat, BitVec.toNat_xor, BitVec.toNat_ushiftRight]
  have hbit : x.getLsbD 0 = decide (x.toNat % 2 = 1) := by
    rw [BitVec.getLsbD, Nat.testBit_zero]
  rw [hbit]
  rcases Nat.mod_two_eq_zero_or_one x.toNat with h | h <;> simp [h]

theorem crc32Step_toNat (crc : UInt32) (byte : UInt8) :
    (crc32Step ngxCrc32Table256 crc byte).toNat = crcByteNat crc.toNat byte.toNat := by
  have hword : (crc32Step ngxCrc32Table256 crc byte).toBitVec = Crc.crcByte 0xEDB88320#32 crc.toBitVec byte.toBitVec :=
    crc32Step_eq crc byte
  have hsemi : Function.Semiconj BitVec.toNat (Crc.crcBit 0xEDB88320#32) crcBitNat := crcBit_toNat
  rw [← UInt32.toNat_toBitVec, hword, Crc.crcByte, hsemi.iterate_right 8]
  have hbyte : (byte.toBitVec.setWidth 32).toNat = byte.toNat := by
    rw [BitVec.toNat_setWidth]
    exact Nat.mod_eq_of_lt (byte.toNat_lt.trans (by decide))
  rw [BitVec.toNat_xor, hbyte]
  rfl

theorem hash_toNat (base prev : UInt32) :
    (ngxCrc32Final (ngxCrc32Update base (prevHashBytes prev))).toNat = hashNat base.toNat prev.toNat := by
  simp only [ngxCrc32Final, ngxCrc32Update, prevHashBytes, hashNat, List.foldl_cons, List.foldl_nil, UInt32.toNat_xor,
    crc32Step_toNat, UInt32.toNat_toUInt8, UInt32.toNat_shiftRight]
  rfl

theorem chashHashes_toNat (base : UInt32) (n : ℕ) (prev : UInt32) :
    (chashHashes base n prev).map UInt32.toNat = placesNat base.toNat n prev.toNat := by
  induction n generalizing prev with
  | zero => rfl
  | succ n ih => rw [chashHashes, placesNat, List.map_cons, ih, hash_toNat]

/-- The places modulo `m`, as bits. -/
def bitsOf (m : ℕ) : List ℕ → ℕ
  | [] => 0
  | p :: rest => 1 <<< (p % m) ||| bitsOf m rest

theorem testBit_bitsOf (m : ℕ) {p : ℕ} {l : List ℕ} (hp : p ∈ l) : (bitsOf m l).testBit (p % m) = true := by
  induction l with
  | nil => exact absurd hp List.not_mem_nil
  | cons q rest ih =>
    rw [bitsOf, Nat.testBit_or, Bool.or_eq_true]
    rcases List.mem_cons.mp hp with rfl | hp
    · left
      rw [Nat.testBit_shiftLeft, Nat.sub_self]
      simp
    · exact Or.inr (ih hp)

theorem ne_of_bitsOf {m : ℕ} {l l' : List ℕ} (h : bitsOf m l &&& bitsOf m l' = 0) {p q : ℕ} (hp : p ∈ l) (hq : q ∈ l') :
    p ≠ q := by
  rintro rfl
  have hbit : (bitsOf m l &&& bitsOf m l').testBit (p % m) = true := by
    rw [Nat.testBit_and, testBit_bitsOf m hp, testBit_bitsOf m hq, Bool.and_self]
  rw [h, Nat.zero_testBit] at hbit
  exact absurd hbit Bool.false_ne_true

theorem peerPoints_place (peer : RrPeer) :
    (peerPoints peer).map ChashPoint.place = placesNat (baseHash peer.server).toNat (npointsOf peer).toNat 0 := by
  rw [peerPoints, List.map_map]
  exact chashHashes_toNat _ _ 0

theorem exists_firstFrom {points all : List ChashPoint} {key : List UInt8} {n : ℕ}
    (hplace : n ∈ points.map ChashPoint.place) (hkey : keyPlace key ≤ n)
    (hfirst : ∀ p ∈ all.map ChashPoint.place, keyPlace key ≤ p → n ≤ p) : ∃ q ∈ points, FirstFrom all key q := by
  obtain ⟨q, hq, rfl⟩ := List.mem_map.mp hplace
  exact ⟨q, hq, hkey, fun p hp => hfirst p.place (List.mem_map_of_mem hp)⟩

/-- The points of the servers are all different, and each server has a key. -/
theorem points_serverA_serverB :
    (∀ p ∈ peerPoints (rrPeerOf serverA), ∀ q ∈ peerPoints (rrPeerOf serverB), p.hash ≠ q.hash) ∧
      (∃ q ∈ peerPoints (rrPeerOf serverA), FirstFrom (peerPoints (rrPeerOf serverA) ++ peerPoints (rrPeerOf serverB)) [97] q) ∧
      ∃ q ∈ peerPoints (rrPeerOf serverB), FirstFrom (peerPoints (rrPeerOf serverA) ++ peerPoints (rrPeerOf serverB)) [105] q := by
  have hbits : bitsOf 4359 (placesNat (baseHash [97]).toNat 160 0) &&& bitsOf 4359 (placesNat (baseHash [98]).toNat 160 0) = 0 := by
    decide +kernel
  refine ⟨fun p hp q hq => ?_, exists_firstFrom (n := 3906084659) ?_ ?_ ?_, exists_firstFrom (n := 3869842328) ?_ ?_ ?_⟩
  · rw [Ne, hash_eq_iff]
    apply ne_of_bitsOf hbits
    · exact peerPoints_place (rrPeerOf serverA) ▸ List.mem_map_of_mem hp
    · exact peerPoints_place (rrPeerOf serverB) ▸ List.mem_map_of_mem hq
  · rw [peerPoints_place]
    decide +kernel
  · decide +kernel
  · rw [List.map_append, peerPoints_place, peerPoints_place]
    decide +kernel
  · rw [peerPoints_place]
    decide +kernel
  · decide +kernel
  · rw [List.map_append, peerPoints_place, peerPoints_place]
    decide +kernel

section Servers

variable {servers : List StreamUpstreamServer} {u : Upstream} {points : List ChashPoint}
  (hinit : ngxStreamUpstreamInitChash stableSort (fun _ => true) (.servers servers) = some (u, points))

include hinit

theorem allEligible_initChash (hup : ∀ s ∈ servers, (rrPeerOf s).unavailable 0 = false) (random : ℕ → ℕ) :
    AllEligible ⟨0, random⟩ u := by
  intro i hi
  obtain ⟨single, heq⟩ := initRoundRobin_primary (initChash_some hinit).1
  rw [heq] at hi ⊢
  exact @forall_rrPeersOf (fun peer => peer.unavailable 0 = false) _ (fun s hs => hup s (List.mem_filter.mp hs).1) single i hi

theorem mem_pointsOf_initChash (hprimary : ∀ s ∈ servers, s.backup = false ∧ 0 < s.naddrs) {p : ChashPoint} :
    p ∈ pointsOf (u.list .primary) ↔ ∃ s ∈ servers, p ∈ peerPoints (rrPeerOf s) := by
  rw [mem_pointsOf_init (initChash_some hinit).1]
  constructor
  · rintro ⟨s, hs, -, -, hp⟩
    exact ⟨s, hs, hp⟩
  · rintro ⟨s, hs, hp⟩
    exact ⟨s, hs, (hprimary s hs).1, (hprimary s hs).2, hp⟩

end Servers

section TwoServers

variable {u : Upstream} {points : List ChashPoint}
  (hinit : ngxStreamUpstreamInitChash stableSort (fun _ => true) (.servers [serverA, serverB]) = some (u, points))

include hinit

theorem mem_pointsOf_twoServers {p : ChashPoint} : p ∈ pointsOf (u.list .primary) ↔
    p ∈ peerPoints (rrPeerOf serverA) ++ peerPoints (rrPeerOf serverB) := by
  rw [mem_pointsOf_initChash hinit (by decide), List.mem_append]
  simp only [List.mem_cons, List.not_mem_nil, or_false, exists_eq_or_imp, exists_eq_left]

theorem clear_twoServers : Clear ChashPoint.place ChashPoint.server (pointsOf (u.list .primary)) := by
  intro p hp q hq hplace
  have hhash := hash_eq_iff.mpr hplace
  rw [mem_pointsOf_twoServers hinit, List.mem_append] at hp hq
  rcases hp with hp | hp <;> rcases hq with hq | hq
  · exact (server_of_mem_peerPoints hp).trans (server_of_mem_peerPoints hq).symm
  · exact absurd hhash (points_serverA_serverB.1 p hp q hq)
  · exact absurd hhash.symm (points_serverA_serverB.1 q hq p hp)
  · exact (server_of_mem_peerPoints hp).trans (server_of_mem_peerPoints hq).symm

theorem owner_twoServers {key : List UInt8} {q : ChashPoint} {s : List UInt8}
    (hq : q ∈ peerPoints (rrPeerOf serverA) ++ peerPoints (rrPeerOf serverB))
    (hfirst : FirstFrom (peerPoints (rrPeerOf serverA) ++ peerPoints (rrPeerOf serverB)) key q)
    (howns : Owns ChashPoint.place ChashPoint.server (pointsOf (u.list .primary)) (keyPlace key) s) : s = q.server := by
  have hmem := (mem_pointsOf_twoServers hinit).mpr hq
  refine howns.unique (clear_twoServers hinit) ⟨q, ⟨hmem, Or.inl ⟨hfirst.1, fun p hp => ?_⟩⟩, rfl⟩
  exact hfirst.2 p ((mem_pointsOf_twoServers hinit).mp hp)

end TwoServers

/-- When the second server goes, a key of the first one stays. -/
theorem consistent_hash_twoServers :
    ∃ u₀ points u₀' points',
      ngxStreamUpstreamInitChash stableSort (fun _ => true) (.servers [serverA, serverB]) = some (u₀, points) ∧
      ngxStreamUpstreamInitChash stableSort (fun _ => true) (.servers [serverA]) = some (u₀', points') ∧
      chosenServer points ⟨0, fun _ => 0⟩ u₀ [97] = some [97] ∧
      chosenServer points' ⟨0, fun _ => 0⟩ u₀' [97] = some [97] := by
  have hinit : ngxStreamUpstreamInitChash stableSort (fun _ => true) (.servers [serverA, serverB]) = some (_, _) := rfl
  have hinit' : ngxStreamUpstreamInitChash stableSort (fun _ => true) (.servers [serverA]) = some (_, _) := rfl
  have hreduced : Reduced [98] [serverA, serverB] [serverA] := .kept _ (.removed serverB rfl .nil)
  obtain ⟨-, s, hchosen, howns, hkept⟩ := consistent_hash stableSort (fun _ => true) [serverA, serverB] _ _ hinit (by decide)
    (clear_twoServers hinit) [] ⟨0, fun _ => 0⟩ (allEligible_initChash hinit (by decide) _) [97] (by decide)
  obtain ⟨-, ⟨q, hq, hfirst⟩, -⟩ := points_serverA_serverB
  obtain rfl : s = [97] := (owner_twoServers hinit (List.mem_append_left _ hq) hfirst howns).trans (server_of_mem_peerPoints hq)
  exact ⟨_, _, _, _, hinit, hinit', hchosen, hkept [98] [serverA] hreduced (by decide) stableSort (fun _ => true) _ _ hinit'
    [] ⟨0, fun _ => 0⟩ (allEligible_initChash hinit' (by decide) _)⟩

/-- The second server with a weight whose points wrap to none. -/
def heavyB : StreamUpstreamServer := plainServer [98] (2 ^ 59) (by decide) (by decide)

/-- Its weight is lowered, and a key moves to it from the first server. -/
theorem lowered_weight_moves :
    ∃ u₀ points u₀' points',
      ngxStreamUpstreamInitChash stableSort (fun _ => true) (.servers [serverA, heavyB]) = some (u₀, points) ∧
      ngxStreamUpstreamInitChash stableSort (fun _ => true) (.servers [serverA, serverB]) = some (u₀', points') ∧
      Reduced [98] [serverA, heavyB] [serverA, serverB] ∧
      Clear ChashPoint.place ChashPoint.server (pointsOf (u₀.list .primary)) ∧
      AllEligible ⟨0, fun _ => 0⟩ u₀ ∧ AllEligible ⟨0, fun _ => 0⟩ u₀' ∧
      chosenServer points ⟨0, fun _ => 0⟩ u₀ [105] = some [97] ∧
      chosenServer points' ⟨0, fun _ => 0⟩ u₀' [105] = some [98] := by
  have hinit : ngxStreamUpstreamInitChash stableSort (fun _ => true) (.servers [serverA, heavyB]) = some (_, _) := rfl
  have hinit' : ngxStreamUpstreamInitChash stableSort (fun _ => true) (.servers [serverA, serverB]) = some (_, _) := rfl
  have helig := allEligible_initChash hinit (by decide) fun _ => 0
  have helig' := allEligible_initChash hinit' (by decide) fun _ => 0
  have hkey : ([105] : List UInt8) ≠ [] := by decide
  have hmem {p : ChashPoint} := @mem_pointsOf_initChash _ _ _ hinit (by decide) p
  simp only [List.mem_cons, List.not_mem_nil, or_false, exists_eq_or_imp, exists_eq_left] at hmem
  obtain ⟨-, ⟨a, ha, -⟩, q, hq, hfirst⟩ := points_serverA_serverB
  have hserver {p : ChashPoint} (hp : p ∈ peerPoints (rrPeerOf serverA) ∨ p ∈ peerPoints (rrPeerOf heavyB)) :
      p.server = [97] := by
    rcases hp with hp | hp
    · exact server_of_mem_peerPoints hp
    · exact absurd hp List.not_mem_nil
  refine ⟨_, _, _, _, hinit, hinit', .kept _ (.lowered heavyB rfl 1 (by decide) (by decide) .nil),
    fun p hp q hq _ => (hserver (hmem.mp hp)).trans (hserver (hmem.mp hq)).symm, helig, helig', ?_, ?_⟩
  · obtain ⟨s, hchosen, p, hfirst, rfl⟩ := chosenServer_owns hinit (List.ne_nil_of_mem (hmem.mpr (Or.inl ha))) (.refl _)
      (fun _ _ => rfl) helig hkey
    rw [hchosen, hserver (hmem.mp hfirst.1)]
  · have hq' := List.mem_append_right (peerPoints (rrPeerOf serverA)) hq
    obtain ⟨s, hchosen, howns⟩ := chosenServer_owns hinit'
      (List.ne_nil_of_mem ((mem_pointsOf_twoServers hinit').mpr hq')) (.refl _) (fun _ _ => rfl) helig' hkey
    rw [hchosen, owner_twoServers hinit' hq' hfirst howns, server_of_mem_peerPoints hq]
    rfl

end NginxDtls
