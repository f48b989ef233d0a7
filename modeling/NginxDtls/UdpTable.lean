import NginxDtls.RbtreeDelete
import NginxDtls.Crc32
import NginxDtls.Core
import NginxDtls.Run

/-! The session table of a UDP listening socket (`ngx_event_udp.c`): a red-black tree whose keys are the CRC-32
of the client address, with the local address for a wildcard listener. Among equal keys the code goes by
`ngx_cmp_sockaddr`, which tells equal from different addresses but does not order them: every
difference is negative. A rotation can then leave a connection to the right of one that the lookup passes
on the left. -/

namespace NginxDtls

open Zipper RbTree Run

/-! ### Addresses -/

/-- The bytes of a socket address in memory. The family is in the byte order of the host, the port and the
IPv4 address in network order; `sin_zero` is zero. -/
def Sockaddr.bytes : Sockaddr → List UInt8
  | .inet port addr =>
    ([2, 0, (port >>> 8).toUInt8, port.toUInt8] : List UInt8) ++ addr.toList ++ List.replicate 8 0
  | .inet6 port flowinfo addr scopeId =>
    ([10, 0, (port >>> 8).toUInt8, port.toUInt8] : List UInt8) ++
      [(flowinfo >>> 24).toUInt8, (flowinfo >>> 16).toUInt8, (flowinfo >>> 8).toUInt8, flowinfo.toUInt8] ++
      addr.toList ++
      [scopeId.toUInt8, (scopeId >>> 8).toUInt8, (scopeId >>> 16).toUInt8, (scopeId >>> 24).toUInt8]
  | .unix path => 1 :: 0 :: path

/-- `sizeof(saun->sun_path)`. -/
def sunPathLen : Nat := 108

def ngxCmpSockaddr (sa1 sa2 : Sockaddr) (cmpPort : Bool) : NgxInt :=
  match sa1, sa2 with
  | .inet6 port1 _ addr1 _, .inet6 port2 _ addr2 _ =>
    if cmpPort ∧ port1 ≠ port2 then .declined else if addr1 ≠ addr2 then .declined else .ok
  | .unix path1, .unix path2 =>
    let len := min (min path1.length path2.length) sunPathLen
    if path1.take len ≠ path2.take len then .declined else .ok
  | .inet port1 addr1, .inet port2 addr2 =>
    if cmpPort ∧ port1 ≠ port2 then .declined else if addr1 ≠ addr2 then .declined else .ok
  | _, _ => .declined

theorem ngxCmpSockaddr_self (sa : Sockaddr) (cmpPort : Bool) : ngxCmpSockaddr sa sa cmpPort = .ok := by
  cases sa <;> simp [ngxCmpSockaddr]

/-- An unbound unix-domain client, which has no address to look up. -/
def Sockaddr.unbound : Sockaddr → Bool
  | .unix path => path.headD 0 = 0
  | _ => false

/-! ### The table -/

/-- The addresses of a connection. -/
structure UdpConnection where
  sockaddr : Sockaddr
  localSockaddr : Sockaddr

/-- The number of the tree node of a connection; `NULL` and the sentinel have the numbers below. -/
def udpNode (c : Nat) : Nat := c + 2

def udpSentinel : Nat := 1

structure UdpListening where
  wildcard : Bool
  rbtree : RbTree
  /-- the connections by number -/
  conns : Nat → UdpConnection
  /-- the connections with `c->udp != NULL` -/
  alive : List Nat

/-- The key of a pair of addresses. -/
def udpHash (wildcard : Bool) (sockaddr localSockaddr : Sockaddr) : UInt32 :=
  let hash := ngxCrc32Update ngxCrc32Init sockaddr.bytes
  ngxCrc32Final (if wildcard then ngxCrc32Update hash localSockaddr.bytes else hash)

/-- The comparison of a pair of addresses with those of a connection. -/
def udpCmp (wildcard : Bool) (sockaddr localSockaddr : Sockaddr) (c : UdpConnection) : NgxInt :=
  let rc := ngxCmpSockaddr sockaddr c.sockaddr true
  if rc = .ok ∧ wildcard then ngxCmpSockaddr localSockaddr c.localSockaddr true else rc

/-- Which way `ngx_udp_rbtree_insert_value` goes at `temp`. -/
def udpGoesLeft (ls : UdpListening) (key : Nat → Nat) (node temp : Nat) : Bool :=
  if key node < key temp then true
  else if key node > key temp then false
  else
    let c := ls.conns (node - 2)
    (udpCmp ls.wildcard c.sockaddr c.localSockaddr (ls.conns (temp - 2))).toInt < 0

def ngxUdpRbtreeInsertValue (ls : UdpListening) (fuel : Nat) (t : RbTree) (temp node : Nat) :
    Option RbTree :=
  rbtreeInsertBelow (udpGoesLeft ls t.key) fuel t temp node

/-- The fuel of the tree loops. -/
def UdpListening.fuel (ls : UdpListening) : Nat := ls.alive.length + 3

/-- `ngx_insert_udp_connection`; `alloc` and `cleanup` are the outcomes of the two allocations. -/
def ngxInsertUdpConnection (ls : UdpListening) (id : Nat) (c : UdpConnection) (alloc cleanup : Bool) :
    Option (UdpListening × NgxInt) :=
  if id ∈ ls.alive then some (ls, .ok)
  else
    let ls := { ls with conns := Function.update ls.conns id c }
    if !alloc then some (ls, .error)
    else
      let hash := udpHash ls.wildcard c.sockaddr c.localSockaddr
      let tree := ls.rbtree.setKey (udpNode id) hash.toNat
      if !cleanup then some ({ ls with rbtree := tree }, .error)
      else do
        let tree ← ngxRbtreeInsert (ngxUdpRbtreeInsertValue ls) ls.fuel tree (udpNode id)
        some ({ ls with rbtree := tree, alive := id :: ls.alive }, .ok)

def ngxDeleteUdpConnection (ls : UdpListening) (id : Nat) : Option UdpListening :=
  if id ∉ ls.alive then some ls
  else do
    let tree ← ngxRbtreeDelete ls.fuel ls.rbtree (udpNode id)
    some { ls with rbtree := tree, alive := ls.alive.erase id }

/-- The loop of `ngx_lookup_udp_connection`; the inner `none` is `NULL`. -/
def udpLookup (ls : UdpListening) (sockaddr localSockaddr : Sockaddr) (hash : Nat) :
    Nat → Nat → Option (Option Nat)
  | 0, _ => none
  | fuel + 1, node =>
    if node = ls.rbtree.sentinel then some none
    else if hash < ls.rbtree.key node then
      udpLookup ls sockaddr localSockaddr hash fuel (ls.rbtree.child .left node)
    else if hash > ls.rbtree.key node then
      udpLookup ls sockaddr localSockaddr hash fuel (ls.rbtree.child .right node)
    else
      let rc := udpCmp ls.wildcard sockaddr localSockaddr (ls.conns (node - 2))
      if rc = .ok then some (some (node - 2))
      else
        udpLookup ls sockaddr localSockaddr hash fuel
          (if rc.toInt < 0 then ls.rbtree.child .left node else ls.rbtree.child .right node)

def ngxLookupUdpConnection (ls : UdpListening) (sockaddr localSockaddr : Sockaddr) : Option (Option Nat) :=
  if sockaddr.unbound then some none
  else
    udpLookup ls sockaddr localSockaddr (udpHash ls.wildcard sockaddr localSockaddr).toNat ls.fuel
      ls.rbtree.root

/-! ### Searching -/

section Lookup

variable {ls : UdpListening} {sa la : Sockaddr} {hash : Nat} {T : BTree Nat} {path : List (Frame Nat)}

/-- Where no node of the subtree matches, the loop ends without one. -/
theorem udpLookup_none (fuel : Nat) (h : ls.rbtree.Rep T path)
    (hno : ∀ n ∈ T.toList, ls.rbtree.key n = hash → udpCmp ls.wildcard sa la (ls.conns (n - 2)) ≠ .ok)
    (hfuel : T.toList.length < fuel) :
    udpLookup ls sa la hash fuel (ptr ls.rbtree.sentinel T) = some none := by
  induction fuel generalizing T path with
  | zero => exact absurd hfuel (Nat.not_lt_zero _)
  | succ fuel ih =>
      cases T with
      | leaf => rw [udpLookup, if_pos (by rfl)]
      | node red l x r =>
          have hx : x ≠ ls.rbtree.sentinel := Rep.ne_sentinel (d := .left) h
          have hl : ls.rbtree.Rep l (⟨.left, red, x, r⟩ :: path) := rep_cons.mpr h
          have hr : ls.rbtree.Rep r (⟨.right, red, x, l⟩ :: path) := rep_cons.mpr h
          have hleft : ls.rbtree.child .left x = ptr ls.rbtree.sentinel l := h.links.2.1
          have hright : ls.rbtree.child .right x = ptr ls.rbtree.sentinel r := h.links.2.2.1
          simp only [BTree.toList, List.length_append, List.length_cons] at hfuel
          have ihl := ih hl (fun n hn => hno n (by simp [BTree.toList, hn])) (by omega)
          have ihr := ih hr (fun n hn => hno n (by simp [BTree.toList, hn])) (by omega)
          rw [ptr, udpLookup, if_neg hx, hleft, hright, ihl, ihr]
          by_cases hlt : hash < ls.rbtree.key x
          · rw [if_pos hlt]
          · by_cases hgt : hash > ls.rbtree.key x
            · rw [if_neg hlt, if_pos hgt]
            · have hne := hno x (by simp [BTree.toList]) (by omega)
              rw [if_neg hlt, if_neg hgt]
              simp only [hne, if_false]
              split
              · exact ihl
              · exact ihr

/-- In a subtree with increasing keys the loop finds the node with the key. -/
theorem udpLookup_found (fuel : Nat) (h : ls.rbtree.Rep T path)
    (hsorted : T.toList.Pairwise fun m n => ls.rbtree.key m < ls.rbtree.key n) {z : Nat} (hz : z ∈ T.toList)
    (hkey : ls.rbtree.key z = hash) (hok : udpCmp ls.wildcard sa la (ls.conns (z - 2)) = .ok)
    (hfuel : T.toList.length < fuel) :
    udpLookup ls sa la hash fuel (ptr ls.rbtree.sentinel T) = some (some (z - 2)) := by
  induction fuel generalizing T path with
  | zero => exact absurd hfuel (Nat.not_lt_zero _)
  | succ fuel ih =>
      cases T with
      | leaf => exact absurd hz List.not_mem_nil
      | node red l x r =>
          have hx : x ≠ ls.rbtree.sentinel := Rep.ne_sentinel (d := .left) h
          have hl : ls.rbtree.Rep l (⟨.left, red, x, r⟩ :: path) := rep_cons.mpr h
          have hr : ls.rbtree.Rep r (⟨.right, red, x, l⟩ :: path) := rep_cons.mpr h
          have hleft : ls.rbtree.child .left x = ptr ls.rbtree.sentinel l := h.links.2.1
          have hright : ls.rbtree.child .right x = ptr ls.rbtree.sentinel r := h.links.2.2.1
          simp only [BTree.toList, List.length_append, List.length_cons] at hfuel
          simp only [BTree.toList, List.pairwise_append, List.pairwise_cons, List.mem_cons] at hsorted
          obtain ⟨sl, ⟨hxr, sr⟩, hlx⟩ := hsorted
          simp only [BTree.toList, List.mem_append, List.mem_cons] at hz
          rw [ptr, udpLookup, if_neg hx, hleft, hright]
          rcases hz with hz | rfl | hz
          · have hlt : hash < ls.rbtree.key x := hkey ▸ hlx z hz x (.inl rfl)
            rw [if_pos hlt]
            exact ih hl sl hz (by omega)
          · rw [if_neg (by omega), if_neg (by omega)]
            simp only [hok, if_true]
          · have hgt : ls.rbtree.key x < hash := hkey ▸ hxr z hz
            rw [if_neg (by omega), if_pos hgt]
            exact ih hr sr hz (by omega)

end Lookup

/-! ### Runs -/

/-- A call on the table: a connection with its addresses is inserted, or one is deleted. -/
inductive UdpCall where
  | insert (id : Nat) (c : UdpConnection) (alloc cleanup : Bool)
  | delete (id : Nat)

/-- The table after a call; absent if a loop did not end within its fuel. -/
def udpStep (st : Option UdpListening) (call : UdpCall) : Option UdpListening :=
  st.bind fun ls => match call with
  | .insert id c alloc cleanup => (ngxInsertUdpConnection ls id c alloc cleanup).map Prod.fst
  | .delete id => ngxDeleteUdpConnection ls id

/-- An empty table over whatever the memory of its nodes holds. -/
def udpStart (wildcard : Bool) (memory : RbTree) (conns : Nat → UdpConnection) : UdpListening :=
  { wildcard, rbtree := ngxRbtreeInit memory udpSentinel, conns, alive := [] }

/-- The addresses belong to a connection. -/
def UdpListening.Belongs (ls : UdpListening) (sa la : Sockaddr) (id : Nat) : Prop :=
  udpCmp ls.wildcard sa la (ls.conns id) = .ok

/-- Every connection that is alive is found by its addresses, and no addresses of the internet families find
anything else. -/
structure UdpListening.LookupRight (ls : UdpListening) : Prop where
  found : ∀ id ∈ ls.alive,
    ngxLookupUdpConnection ls (ls.conns id).sockaddr (ls.conns id).localSockaddr = some (some id)
  missing : ∀ sa la : Sockaddr, (∀ path, sa ≠ .unix path) → (∀ id ∈ ls.alive, ¬ls.Belongs sa la id) →
    ngxLookupUdpConnection ls sa la = some none

/-- The addresses of the new connection are those of no connection alive. -/
def UdpListening.Fresh (ls : UdpListening) : UdpCall → Prop
  | .insert id c _ _ => id ∉ ls.alive → ∀ other ∈ ls.alive, ¬ls.Belongs c.sockaddr c.localSockaddr other
  | .delete _ => True

/-- No connection alive has the key of a new one, and a new client is bound to an address. -/
def UdpListening.KeyFree (ls : UdpListening) : UdpCall → Prop
  | .insert id c _ _ => id ∉ ls.alive → c.sockaddr.unbound = false ∧ ∀ other ∈ ls.alive,
      udpHash ls.wildcard (ls.conns other).sockaddr (ls.conns other).localSockaddr ≠
        udpHash ls.wildcard c.sockaddr c.localSockaddr
  | .delete _ => True

instance (ls : UdpListening) (call : UdpCall) : Decidable (ls.Fresh call) :=
  match call with
  | .insert id c _ _ => inferInstanceAs (Decidable (id ∉ ls.alive → ∀ other ∈ ls.alive,
      ¬udpCmp ls.wildcard c.sockaddr c.localSockaddr (ls.conns other) = .ok))
  | .delete _ => inferInstanceAs (Decidable True)

instance (ls : UdpListening) (call : UdpCall) : Decidable (ls.KeyFree call) :=
  match call with
  | .insert id c _ _ => inferInstanceAs (Decidable (id ∉ ls.alive → c.sockaddr.unbound = false ∧
      ∀ other ∈ ls.alive, udpHash ls.wildcard (ls.conns other).sockaddr (ls.conns other).localSockaddr ≠
        udpHash ls.wildcard c.sockaddr c.localSockaddr))
  | .delete _ => inferInstanceAs (Decidable True)

end NginxDtls
