import NginxDtls.Crc32
import NginxDtls.InetText
import NginxDtls.Core

/-! The load balancer of a stream upstream: the peer lists that a configuration makes
(`ngx_stream_upstream_round_robin.c`), and the selections and frees of one session by round robin, by
`least_conn`, by `hash` and consistent hash and by `random`. All of them keep the connection counts of the same peers,
and the first, second and fourth of them the same weights. -/

namespace NginxDtls

/-- `uintptr_t`, the words of a bitmap of tried peers. -/
abbrev Uintptr := BitVec 64

/-! ### Peers -/

/-- What selections and frees read and write of a `ngx_stream_upstream_rr_peer_t`. The current and the effective weight
are `ngx_int_t`, whose sums wrap. `conns` is a word in the source; here a count below zero would show. -/
structure RrPeer where
  server : List UInt8
  currentWeight : Int64
  effectiveWeight : Int64
  weight : ℕ
  conns : ℤ
  maxConns : ℕ
  fails : ℕ
  accessed : ℤ
  checked : ℤ
  maxFails : ℕ
  failTimeout : ℤ
  down : Bool
  deriving Inhabited, DecidableEq

/-- A list of `number` peers. `peer i` is the peer that `i` steps along `next` lead to. -/
structure RrPeers where
  number : ℕ
  totalWeight : ℕ
  tries : ℕ
  single : Bool
  peer : ℕ → RrPeer
  deriving Inhabited

def RrPeers.modify (l : RrPeers) (i : ℕ) (f : RrPeer → RrPeer) : RrPeers :=
  { l with peer := Function.update l.peer i (f (l.peer i)) }

/-- The list of primary peers and the list of backup peers. -/
inductive Tier where
  | primary
  | backup
  deriving DecidableEq, Repr

/-- The peers of an upstream. `next` says whether the primary list has a next list; without one the backup list is
empty. -/
structure Upstream where
  list : Tier → RrPeers
  next : Bool
  deriving Inhabited

def Upstream.modify (u : Upstream) (side : Tier) (f : RrPeers → RrPeers) : Upstream :=
  { u with list := Function.update u.list side (f (u.list side)) }

/-! ### The configuration -/

/-- A `server` directive, with the number of addresses that its name has. The parser of the directive rejects the
weight zero, and `ngx_atoi` reads no more than an `ngx_int_t`. -/
structure StreamUpstreamServer where
  name : List UInt8
  naddrs : ℕ
  weight : ℕ
  maxConns : ℕ
  maxFails : ℕ
  failTimeout : ℤ
  down : Bool
  backup : Bool
  weight_pos : 0 < weight
  weight_lt : weight < 2 ^ 63

/-- An upstream block with its servers, or an upstream defined by `proxy_pass` alone with the number of addresses
of the host (zero without a port or when the host is not found). -/
inductive UpstreamConf where
  | servers (servers : List StreamUpstreamServer)
  | implicit (naddrs : ℕ)

def rrPeerOf (server : StreamUpstreamServer) : RrPeer where
  server := server.name
  currentWeight := 0
  effectiveWeight := Int64.ofNat server.weight
  weight := server.weight
  conns := 0
  maxConns := server.maxConns
  fails := 0
  accessed := 0
  checked := 0
  maxFails := server.maxFails
  failTimeout := server.failTimeout
  down := server.down

/-- The list of the given servers: `n`, `w` and `t` of the source, and a peer for each address. -/
def rrPeersOf (servers : List StreamUpstreamServer) (single : Bool) : RrPeers where
  number := (servers.map (·.naddrs)).sum
  totalWeight := (servers.map fun s => s.naddrs * s.weight).sum
  tries := (servers.map fun s => if s.down then 0 else s.naddrs).sum
  single := single
  peer := fun i => (servers.flatMap fun s => List.replicate s.naddrs (rrPeerOf s)).getD i default

/-- A peer of an upstream without a block. -/
def implicitPeer : RrPeer where
  server := []
  currentWeight := 0
  effectiveWeight := 1
  weight := 1
  conns := 0
  maxConns := 0
  fails := 0
  accessed := 0
  checked := 0
  maxFails := 1
  failTimeout := 10
  down := false

def ngxStreamUpstreamInitRoundRobin : UpstreamConf → Option Upstream
  | .servers servers =>
    let primary := servers.filter fun s => !s.backup
    let backup := servers.filter fun s => s.backup
    let n := (primary.map (·.naddrs)).sum
    if n = 0 then
      none
    else if (backup.map (·.naddrs)).sum = 0 then
      some { list := fun
               | .primary => rrPeersOf primary (n = 1)
               | .backup => default
             next := false }
    else
      -- with backups the only primary peer is not a single one
      some { list := fun
               | .primary => rrPeersOf primary false
               | .backup => rrPeersOf backup false
             next := true }
  | .implicit n =>
    if n = 0 then
      none
    else
      some { list := fun
               | .primary => { number := n, totalWeight := n, tries := n, single := n = 1, peer := fun _ => implicitPeer }
               | .backup => default
             next := false }

/-! ### Tried peers -/

/-- `tried[n] & m` for the word `n` and the bit `m` of a peer. -/
def triedBit (tried : List Uintptr) (i : ℕ) : Bool :=
  tried.getD (i / 64) 0 &&& (1#64 <<< (i % 64)) ≠ 0

/-- `tried[n] |= m`. -/
def setTried (tried : List Uintptr) (i : ℕ) : List Uintptr :=
  tried.set (i / 64) (tried.getD (i / 64) 0 ||| (1#64 <<< (i % 64)))

/-- Clears the words of `number` peers. -/
def clearTried (tried : List Uintptr) (number : ℕ) : List Uintptr :=
  tried.mapIdx fun i word => if i < (number + 63) / 64 then 0 else word

/-- What makes every selection pass over a peer, besides that it was tried: it is down, failed too often and not
long ago, or has all the connections it may have. -/
def RrPeer.unavailable (peer : RrPeer) (now : ℤ) : Bool :=
  peer.down ||
    (peer.maxFails ≠ 0 && peer.maxFails ≤ peer.fails && now - peer.checked ≤ peer.failTimeout) ||
    (peer.maxConns ≠ 0 && (peer.maxConns : ℤ) ≤ peer.conns)

def skipped (tried : List Uintptr) (now : ℤ) (i : ℕ) (peer : RrPeer) : Bool :=
  triedBit tried i || peer.unavailable now

/-! ### The data of a session -/

/-- `ngx_stream_upstream_rr_peer_data_t`. -/
structure RrPeerData where
  peers : Tier
  current : Option (Tier × ℕ)
  tried : List Uintptr
  deriving DecidableEq

/-- What a selection returns, with the peers and the session's data after it. -/
abbrev Got := NgxInt × Upstream × RrPeerData

/-- The data of a new session, and `peer.tries`. -/
def ngxStreamUpstreamInitRoundRobinPeer (u : Upstream) : RrPeerData × ℕ :=
  let number := (u.list .primary).number
  let n := if u.next ∧ number < (u.list .backup).number then (u.list .backup).number else number
  ({ peers := .primary
     current := none
     tried := if n ≤ 64 then [0] else List.replicate ((n + 63) / 64) 0 },
   (u.list .primary).tries + if u.next then (u.list .backup).tries else 0)

/-! ### Round robin -/

/-- The state of a loop over the peers. -/
structure Scan where
  peer : ℕ → RrPeer
  best : Option ℕ
  total : Int64

def RrPeer.gain (peer : RrPeer) : RrPeer :=
  { peer with
    currentWeight := peer.currentWeight + peer.effectiveWeight
    effectiveWeight :=
      if peer.effectiveWeight.toInt < peer.weight then peer.effectiveWeight + 1 else peer.effectiveWeight }

/-- The end of an iteration, for a peer that was not passed over. -/
def Scan.weigh (st : Scan) (i : ℕ) : Scan :=
  let peer := Function.update st.peer i (st.peer i).gain
  { peer := peer
    best :=
      match st.best with
      | none => some i
      | some best => if (peer best).currentWeight < (peer i).currentWeight then some i else some best
    total := st.total + (st.peer i).effectiveWeight }

/-- A loop over the list, with what it passes over. -/
def weighList (skip : ℕ → RrPeer → Bool) (l : RrPeers) : Scan :=
  (List.range l.number).foldl (fun (st : Scan) i => if skip i (st.peer i) then st else st.weigh i) ⟨l.peer, none, 0⟩

/-- `if (now - peer->checked > peer->fail_timeout) peer->checked = now`. -/
def RrPeer.check (peer : RrPeer) (now : ℤ) : RrPeer :=
  if peer.failTimeout < now - peer.checked then { peer with checked := now } else peer

/-- `best->current_weight -= total`, and the check. -/
def RrPeer.pay (peer : RrPeer) (total : Int64) (now : ℤ) : RrPeer :=
  { peer with currentWeight := peer.currentWeight - total }.check now

def RrPeer.connect (peer : RrPeer) : RrPeer := { peer with conns := peer.conns + 1 }

/-- Selects among the peers of a list. Without a peer to select nothing is changed. -/
def ngxStreamUpstreamGetPeer (l : RrPeers) (tried : List Uintptr) (now : ℤ) :
    Option (ℕ × RrPeers × List Uintptr) :=
  let st := weighList (skipped tried now) l
  match st.best with
  | none => none
  | some p => some (p, { l with peer := st.peer }.modify p (·.pay st.total now), setTried tried p)

/-- The selection with `p` from the session's list, whose peers and bitmap are now the given ones. -/
def RrPeerData.took (rrp : RrPeerData) (p : ℕ) (tried : List Uintptr) : RrPeerData :=
  { rrp with current := some (rrp.peers, p), tried := tried }

/-- `failed:` Without a peer in the primary list the backup list is searched, with its bits cleared. -/
def failedOver (again : Upstream → RrPeerData → Got) (u : Upstream) (rrp : RrPeerData) : Got :=
  if rrp.peers = .primary ∧ u.next then
    again u { rrp with peers := .backup, tried := clearTried rrp.tried (u.list .backup).number }
  else
    (.busy, u, rrp)

def getRoundRobinPeer (again : Upstream → RrPeerData → Got) (now : ℤ) (u : Upstream) (rrp : RrPeerData) : Got :=
  let peers := u.list rrp.peers
  if peers.single then
    let peer := peers.peer 0
    if peer.down || (peer.maxConns ≠ 0 && (peer.maxConns : ℤ) ≤ peer.conns) then
      failedOver again u rrp
    else
      (.ok, u.modify rrp.peers (·.modify 0 (·.connect)), { rrp with current := some (rrp.peers, 0) })
  else
    match ngxStreamUpstreamGetPeer peers rrp.tried now with
    | none => failedOver again u rrp
    | some (p, l, tried) => (.ok, u.modify rrp.peers fun _ => l.modify p (·.connect), rrp.took p tried)

/-- The call for the backup list does not search further: that list has no next one. -/
def ngxStreamUpstreamGetRoundRobinPeer (now : ℤ) : Upstream → RrPeerData → Got :=
  getRoundRobinPeer (getRoundRobinPeer (fun u rrp => (.busy, u, rrp)) now) now

/-! ### Least connections -/

/-- `one->conns * two->weight`, a product of words. -/
def scaledConns (one two : RrPeer) : ℤ := one.conns * two.weight % 2 ^ 64

/-- An iteration of the first loop. -/
def leastConnsStep (l : RrPeers) (tried : List Uintptr) (now : ℤ) (best : Option (ℕ × Bool)) (i : ℕ) :
    Option (ℕ × Bool) :=
  let peer := l.peer i
  if skipped tried now i peer then
    best
  else
    match best with
    | none => some (i, false)
    | some (p, many) =>
      if scaledConns peer (l.peer p) < scaledConns (l.peer p) peer then some (i, false)
      else if scaledConns peer (l.peer p) = scaledConns (l.peer p) peer then some (p, true)
      else some (p, many)

/-- The first loop: the first peer with the fewest connections for its weight, and whether a later one has as few. -/
def leastConns (l : RrPeers) (tried : List Uintptr) (now : ℤ) : Option (ℕ × Bool) :=
  (List.range l.number).foldl (leastConnsStep l tried now) none

/-- An iteration of the second loop, from `p` on: the peers with as few connections as the best so far. -/
def leastConnsRound (tried : List Uintptr) (now : ℤ) (st : Scan) (i : ℕ) : Scan :=
  match st.best with
  | none => st
  | some best =>
    if skipped tried now i (st.peer i) ||
        scaledConns (st.peer i) (st.peer best) ≠ scaledConns (st.peer best) (st.peer i) then
      st
    else
      st.weigh i

def getLeastConnPeer (again : Upstream → RrPeerData → Got) (now : ℤ) (u : Upstream) (rrp : RrPeerData) : Got :=
  let peers := u.list rrp.peers
  if peers.single then
    ngxStreamUpstreamGetRoundRobinPeer now u rrp
  else
    match leastConns peers rrp.tried now with
    | none => failedOver again u rrp
    | some (p, many) =>
      let start : Scan := ⟨peers.peer, some p, 0⟩
      let st := if many then (List.range' p (peers.number - p)).foldl (leastConnsRound rrp.tried now) start else start
      let best := st.best.getD p
      (.ok, u.modify rrp.peers fun l => { l with peer := st.peer }.modify best (·.pay st.total now |>.connect),
        rrp.took best (setTried rrp.tried best))

def ngxStreamUpstreamGetLeastConnPeer (now : ℤ) : Upstream → RrPeerData → Got :=
  getLeastConnPeer (getLeastConnPeer (fun u rrp => (.busy, u, rrp)) now) now

/-! ### Hash -/

/-- The methods of an upstream block. -/
inductive Method where
  | roundRobin
  | leastConn
  | hash
  | consistentHash
  | random
  | randomTwo
  deriving DecidableEq, Repr

/-- The data of a session: `ngx_stream_upstream_hash_peer_data_t`, or the first and the fourth field of it
(`ngx_stream_upstream_random_peer_data_t`), or the first alone. -/
structure PeerData where
  rrp : RrPeerData
  key : List UInt8
  tries : ℕ
  rehash : ℕ
  hash : UInt32
  deriving DecidableEq

/-- What a selection with the data of a method returns. -/
abbrev Chosen := NgxInt × Upstream × PeerData

/-- A selection among all peers of the list, for a method that has its own data. -/
def PeerData.getRrPeer (hp : PeerData) (now : ℤ) (u : Upstream) : Chosen :=
  let got := ngxStreamUpstreamGetRoundRobinPeer now u hp.rrp
  (got.1, got.2.1, { hp with rrp := got.2.2 })

/-- The selection of the peer `p` of a list without weighing. -/
def PeerData.choose (hp : PeerData) (now : ℤ) (u : Upstream) (side : Tier) (p : ℕ) : Chosen :=
  (.ok, u.modify side (·.modify p (·.connect.check now)),
    { hp with rrp := { hp.rrp with current := some (side, p), tried := setTried hp.rrp.tried p } })

/-- `while (w >= peer->weight)`, with the number of peers from `p` on. -/
def hashIndex (peer : ℕ → RrPeer) : ℕ → ℕ → ℕ → ℕ
  | 0, _, p => p
  | left + 1, w, p => if (peer p).weight ≤ w then hashIndex peer left (w - (peer p).weight) (p + 1) else p

/-- The bytes that are hashed in a pass: the number of the pass, except in the first, and the key. -/
def rehashText (rehash : ℕ) (key : List UInt8) : List UInt8 :=
  (if 0 < rehash then sprintfUd rehash else []) ++ key

/-- The head of a pass. -/
def PeerData.rehashed (hp : PeerData) : PeerData :=
  let hash := (ngxCrc32Final (ngxCrc32Update ngxCrc32Init (rehashText hp.rehash hp.key)) >>> 16) &&& 0x7fff
  { hp with hash := hp.hash + hash, rehash := hp.rehash + 1 }

/-- The passes of a method with misses, each with the number of misses `left` until their count passes 20. Then, at
`next`, all peers of the list are weighed instead. -/
def passes {D : Type} (pass : ℕ → D → Chosen ⊕ D) (getRrPeer : D → Chosen) : ℕ → D → Chosen
  | left, data =>
    match pass left data with
    | .inl chosen => chosen
    | .inr data =>
      match left with
      | 0 => getRrPeer data
      | left + 1 => passes pass getRrPeer left data

def PeerData.missed (hp : PeerData) : PeerData := { hp with tries := hp.tries + 1 }

def hashPass (now : ℤ) (u : Upstream) (_ : ℕ) (hp : PeerData) : Chosen ⊕ PeerData :=
  let hp := hp.rehashed
  let peers := u.list hp.rrp.peers
  let p := hashIndex peers.peer peers.number (hp.hash.toNat % peers.totalWeight) 0
  if skipped hp.rrp.tried now p (peers.peer p) then .inr hp.missed else .inl (hp.choose now u hp.rrp.peers p)

def ngxStreamUpstreamGetHashPeer (now : ℤ) (u : Upstream) (hp : PeerData) : Chosen :=
  if 20 < hp.tries ∨ (u.list hp.rrp.peers).single ∨ hp.key = [] then
    hp.getRrPeer now u
  else
    passes (hashPass now u) (fun hp => hp.getRrPeer now u) (20 - hp.tries) hp

/-! ### Consistent hash -/

/-- `ngx_stream_upstream_chash_point_t`. -/
structure ChashPoint where
  hash : UInt32
  server : List UInt8
  deriving Inhabited

/-- The search for the first point at or after the hash, between `i` and `j`; the first argument bounds the number of
halvings. -/
def findChashPoint (points : List ChashPoint) (hash : UInt32) : ℕ → ℕ → ℕ → ℕ
  | 0, i, _ => i
  | left + 1, i, j =>
    if i < j then
      let k := (i + j) / 2
      let point := points.getD k default
      if point.hash < hash then findChashPoint points hash left (k + 1) j
      else if hash < point.hash then findChashPoint points hash left i k
      else k
    else
      i

def ngxStreamUpstreamFindChashPoint (points : List ChashPoint) (hash : UInt32) : ℕ :=
  findChashPoint points hash points.length 0 points.length

def chashPass (points : List ChashPoint) (now : ℤ) (u : Upstream) (_ : ℕ) (hp : PeerData) : Chosen ⊕ PeerData :=
  let server := (points.getD (hp.hash.toNat % points.length) default).server
  let side := hp.rrp.peers
  let st := weighList (fun i peer => skipped hp.rrp.tried now i peer || peer.server ≠ server) (u.list side)
  match st.best with
  | some best =>
    .inl (.ok, u.modify side fun l => { l with peer := st.peer }.modify best (·.pay st.total now |>.connect),
      { hp with rrp := hp.rrp.took best (setTried hp.rrp.tried best) })
  | none => .inr { hp with hash := hp.hash + 1 }.missed

def ngxStreamUpstreamGetChashPeer (points : List ChashPoint) (now : ℤ) (u : Upstream) (hp : PeerData) : Chosen :=
  if 20 < hp.tries ∨ (u.list hp.rrp.peers).single ∨ hp.key = [] then
    hp.getRrPeer now u
  else
    passes (chashPass points now u) (fun hp => hp.getRrPeer now u) (20 - hp.tries) hp

/-! ### Random -/

/-- `ranges[k].range`: the weights before the peer `k` of the primary list. -/
def randomRange (u : Upstream) (k : ℕ) : ℕ := ((List.range k).map fun i => ((u.list .primary).peer i).weight).sum

/-- The search for the range with `x` between `i` and `j`. -/
def peekRandom (u : Upstream) (x : ℕ) : ℕ → ℕ → ℕ → ℕ
  | 0, i, _ => i
  | left + 1, i, j =>
    if 1 < j - i then
      let k := (i + j) / 2
      if x < randomRange u k then peekRandom u x left i k else peekRandom u x left k j
    else
      i

/-- `ngx_stream_upstream_peek_random_peer`, with what `ngx_random` returned. -/
def ngxStreamUpstreamPeekRandomPeer (u : Upstream) (peers : RrPeers) (random : ℕ) : ℕ :=
  peekRandom u (random % peers.totalWeight) peers.number 0 peers.number

/-- The ranges are those of the primary list, whatever list the session is at. -/
def randomPass (random : ℕ → ℕ) (now : ℤ) (u : Upstream) (left : ℕ) (rp : PeerData) : Chosen ⊕ PeerData :=
  let i := ngxStreamUpstreamPeekRandomPeer u (u.list rp.rrp.peers) (random left)
  if skipped rp.rrp.tried now i ((u.list .primary).peer i) then .inr rp.missed
  else .inl (rp.choose now u .primary i)

def ngxStreamUpstreamGetRandomPeer (random : ℕ → ℕ) (now : ℤ) (u : Upstream) (rp : PeerData) : Chosen :=
  if 20 < rp.tries ∨ (u.list rp.rrp.peers).single then
    rp.getRrPeer now u
  else
    passes (randomPass random now u) (fun rp => rp.getRrPeer now u) (20 - rp.tries) rp

/-- A pass with the peer of an earlier one: of two the one with fewer connections for its weight is taken. -/
def randomTwoPass (random : ℕ → ℕ) (now : ℤ) (u : Upstream) (left : ℕ) (data : PeerData × Option ℕ) :
    Chosen ⊕ PeerData × Option ℕ :=
  let (rp, prev) := data
  let i := ngxStreamUpstreamPeekRandomPeer u (u.list rp.rrp.peers) (random left)
  let peer := (u.list .primary).peer i
  if prev = some i ∨ skipped rp.rrp.tried now i peer then
    .inr (rp.missed, prev)
  else
    match prev with
    | none => .inr (rp.missed, some i)
    | some p =>
      let other := (u.list .primary).peer p
      .inl (rp.choose now u .primary (if scaledConns other peer < scaledConns peer other then p else i))

def ngxStreamUpstreamGetRandomTwoPeer (random : ℕ → ℕ) (now : ℤ) (u : Upstream) (rp : PeerData) : Chosen :=
  if 20 < rp.tries ∨ (u.list rp.rrp.peers).single then
    rp.getRrPeer now u
  else
    passes (randomTwoPass random now u) (fun data => data.1.getRrPeer now u) (20 - rp.tries) (rp, none)

/-! ### One upstream -/

/-- What decides a selection besides the peers and the session: the clock and the random numbers of the passes. -/
structure Moment where
  now : ℤ
  random : ℕ → ℕ

/-- `peer.init` of a method, with the value of the key, and `peer.tries`. -/
def peerInit (method : Method) (points : List ChashPoint) (u : Upstream) (key : List UInt8) : PeerData × ℕ :=
  let (rrp, tries) := ngxStreamUpstreamInitRoundRobinPeer u
  let hash :=
    match method with
    | .consistentHash =>
      UInt32.ofNat
        (ngxStreamUpstreamFindChashPoint points (ngxCrc32Final (ngxCrc32Update ngxCrc32Init key)))
    | _ => 0
  ({ rrp := rrp, key := key, tries := 0, rehash := 0, hash := hash }, tries)

/-- `peer.get` of a method. -/
def peerGet (method : Method) (points : List ChashPoint) (m : Moment) (u : Upstream) (data : PeerData) : Chosen :=
  match method with
  | .roundRobin => data.getRrPeer m.now u
  | .leastConn =>
    let got := ngxStreamUpstreamGetLeastConnPeer m.now u data.rrp
    (got.1, got.2.1, { data with rrp := got.2.2 })
  | .hash => ngxStreamUpstreamGetHashPeer m.now u data
  | .consistentHash => ngxStreamUpstreamGetChashPeer points m.now u data
  | .random => ngxStreamUpstreamGetRandomPeer m.random m.now u data
  | .randomTwo => ngxStreamUpstreamGetRandomTwoPeer m.random m.now u data

/-! ### Frees -/

/-- The count of a failure; the effective weight falls, but not below zero. -/
def RrPeer.fail (peer : RrPeer) (now : ℤ) : RrPeer :=
  let effectiveWeight :=
    if peer.maxFails ≠ 0 then peer.effectiveWeight - Int64.ofNat (peer.weight / peer.maxFails) else peer.effectiveWeight
  { peer with
    fails := peer.fails + 1
    accessed := now
    checked := now
    effectiveWeight := if effectiveWeight < 0 then 0 else effectiveWeight }

/-- `if (peer->accessed < peer->checked) peer->fails = 0`. -/
def RrPeer.live (peer : RrPeer) : RrPeer :=
  if peer.accessed < peer.checked then { peer with fails := 0 } else peer

def RrPeer.disconnect (peer : RrPeer) : RrPeer := { peer with conns := peer.conns - 1 }

/-- `peer.free`, which is the same for every method: the peers and `pc->tries` after it. `failed` is the flag
`NGX_PEER_FAILED`. -/
def ngxStreamUpstreamFreeRoundRobinPeer (failed : Bool) (now : ℤ) (u : Upstream) (rrp : RrPeerData) (tries : ℕ) :
    Upstream × ℕ :=
  match rrp.current with
  | none => (u, tries)
  | some (side, p) =>
    if (u.list rrp.peers).single then
      (u.modify side (·.modify p (·.disconnect)), 0)
    else
      (u.modify side (·.modify p fun peer => (if failed then peer.fail now else peer.live).disconnect), tries - 1)

/-- `peer.notify` for a connection of type `SOCK_STREAM`. -/
def ngxStreamUpstreamNotifyRoundRobinPeer (u : Upstream) (rrp : RrPeerData) : Upstream :=
  match rrp.current with
  | none => u
  | some (side, p) => u.modify side (·.modify p (·.live))

end NginxDtls
