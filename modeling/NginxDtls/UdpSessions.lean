import NginxDtls.UdpTable

/-! Whole runs on the session table. While no connection is inserted under the key of another one that is
alive, the keys increase along the tree, and the lookup is exact. With a shared key it is not: a client can
lose its session to the rebalancing. -/

namespace NginxDtls

open Zipper RbTree Run

namespace UdpListening

/-- The key under which a connection is entered. -/
def keyOf (ls : UdpListening) (id : Nat) : Nat :=
  (udpHash ls.wildcard (ls.conns id).sockaddr (ls.conns id).localSockaddr).toNat

/-- The tree holds the connections that are alive, in the order of their keys. -/
structure Ordered (ls : UdpListening) (T : BTree Nat) : Prop where
  valid : ls.rbtree.Valid T
  nodes : T.toList.Perm (ls.alive.map udpNode)
  sorted : T.toList.Pairwise fun m n => ls.rbtree.key m < ls.rbtree.key n
  keys : ∀ id ∈ ls.alive, ls.rbtree.key (udpNode id) = ls.keyOf id
  sentinel : ls.rbtree.sentinel = udpSentinel
  bound : ∀ id ∈ ls.alive, (ls.conns id).sockaddr.unbound = false

variable {ls : UdpListening} {T : BTree Nat}

theorem Ordered.mem_iff (h : ls.Ordered T) {id : Nat} : udpNode id ∈ T.toList ↔ id ∈ ls.alive := by
  rw [h.nodes.mem_iff]
  simp [udpNode]

theorem Ordered.exists_of_mem (h : ls.Ordered T) {n : Nat} (hn : n ∈ T.toList) :
    ∃ id ∈ ls.alive, n = udpNode id := by
  obtain ⟨id, hid, hnode⟩ := List.mem_map.mp (h.nodes.mem_iff.mp hn)
  exact ⟨id, hid, hnode.symm⟩

theorem Ordered.length (h : ls.Ordered T) : T.toList.length = ls.alive.length := by
  simpa using h.nodes.length_eq

theorem Ordered.root (h : ls.Ordered T) : ls.rbtree.root = ptr ls.rbtree.sentinel T := h.valid.rep.path

/-- An ordered table answers every lookup. -/
theorem Ordered.lookupRight (h : ls.Ordered T) : ls.LookupRight := by
  have hfuel : T.toList.length < ls.fuel := by
    rw [h.length, fuel]
    omega
  constructor
  · intro id hid
    rw [ngxLookupUdpConnection, h.bound id hid, if_neg Bool.false_ne_true, h.root]
    have hself : udpCmp ls.wildcard (ls.conns id).sockaddr (ls.conns id).localSockaddr (ls.conns id) = .ok := by
      simp [udpCmp, ngxCmpSockaddr_self]
    exact udpLookup_found ls.fuel h.valid.rep h.sorted (h.mem_iff.mpr hid) (h.keys id hid) hself hfuel
  · intro sa la _ hnone
    rw [ngxLookupUdpConnection]
    split
    · rfl
    · rw [h.root]
      apply udpLookup_none ls.fuel h.valid.rep _ hfuel
      intro n hn _ hok
      obtain ⟨id, hid, rfl⟩ := h.exists_of_mem hn
      exact hnone id hid hok

/-- The memory of a node outside the tree, and of its connection, does not matter. -/
theorem Ordered.write (h : ls.Ordered T) {id : Nat} (hid : id ∉ ls.alive) (c : UdpConnection) (key : Nat) :
    Ordered { ls with conns := Function.update ls.conns id c, rbtree := ls.rbtree.setKey (udpNode id) key } T := by
  have hne : ∀ other ∈ ls.alive, other ≠ id := fun other hother heq => hid (heq ▸ hother)
  have hout : ∀ n ∈ T.toList, n ≠ udpNode id := fun n hn heq => hid (h.mem_iff.mp (heq ▸ hn))
  constructor
  · exact h.valid.setKey _ _
  · exact h.nodes
  · refine h.sorted.imp_of_mem ?_
    intro m n hm hn hlt
    rwa [setKey_key, setKey_key, if_neg (hout m hm), if_neg (hout n hn)]
  · intro other hother
    have hnode : udpNode other ≠ udpNode id := hout _ (h.mem_iff.mpr hother)
    rw [setKey_key, if_neg hnode, h.keys other hother]
    simp [keyOf, hne other hother]
  · exact h.sentinel
  · intro other hother
    simpa [hne other hother] using h.bound other hother

/-- A key that no connection alive has is ordered with all of theirs. -/
theorem goesLeft_of_keyFree {key : Nat → Nat} {z y : Nat} (hne : key y ≠ key z) :
    udpGoesLeft ls key z y = decide (key z < key y) := by
  rw [udpGoesLeft]
  by_cases hlt : key z < key y
  · simp [hlt]
  · have hgt : key z > key y := by omega
    simp [hlt, hgt]

/-- A connection under a new key enters the order. -/
theorem Ordered.insert (h : ls.Ordered T) {id : Nat} (hid : id ∉ ls.alive)
    (hkey : ls.rbtree.key (udpNode id) = ls.keyOf id) (hnew : ∀ other ∈ ls.alive, ls.keyOf other ≠ ls.keyOf id)
    (hbound : (ls.conns id).sockaddr.unbound = false) :
    ∃ t' T', ngxRbtreeInsert (ngxUdpRbtreeInsertValue ls) ls.fuel ls.rbtree (udpNode id) = some t' ∧
      Ordered { ls with rbtree := t', alive := id :: ls.alive } T' := by
  have hz : udpNode id ∉ T.toList := fun hmem => hid (h.mem_iff.mp hmem)
  have hzs : udpNode id ≠ ls.rbtree.sentinel := by
    rw [h.sentinel, udpNode, udpSentinel]
    omega
  have hfuel : T.toList.length < ls.fuel := by
    rw [h.length, fuel]
    omega
  have hbelow : ngxUdpRbtreeInsertValue ls ls.fuel ls.rbtree ls.rbtree.root (udpNode id) =
      rbtreeInsertBelow (udpGoesLeft ls ls.rbtree.key) ls.fuel ls.rbtree ls.rbtree.root (udpNode id) := rfl
  obtain ⟨t', T', l₁, l₂, hins, hvalid, hsplit, helems, hlast, hhead, hkeys, hsent⟩ :=
    ngxRbtreeInsert_valid _ hbelow h.valid hz hzs hfuel
  have hne : ∀ y ∈ T.toList, ls.rbtree.key y ≠ ls.rbtree.key (udpNode id) := by
    intro y hy
    obtain ⟨other, hother, rfl⟩ := h.exists_of_mem hy
    rw [h.keys other hother, hkey]
    exact hnew other hother
  refine ⟨t', T', hins, hvalid, ?_, ?_, ?_, ?_, ?_⟩
  · calc T'.toList = l₁ ++ udpNode id :: l₂ := helems
      _ |>.Perm (udpNode id :: (l₁ ++ l₂)) := List.perm_middle
      _ |>.Perm (udpNode id :: ls.alive.map udpNode) := (hsplit ▸ h.nodes).cons _
  · show T'.toList.Pairwise fun m n => t'.key m < t'.key n
    rw [helems, hkeys]
    have : IsTrans Nat fun m n => ls.rbtree.key m < ls.rbtree.key n := ⟨fun _ _ _ => lt_trans⟩
    apply pairwise_insert (hsplit ▸ h.sorted)
    · intro y hy
      have hmem : y ∈ T.toList := by
        rw [hsplit]
        exact List.mem_append_left _ (List.mem_of_getLast? hy)
      have hgo := hlast y hy
      rw [goesLeft_of_keyFree (hne y hmem)] at hgo
      have hnlt := of_decide_eq_false hgo
      exact lt_of_le_of_ne (not_lt.mp hnlt) (hne y hmem)
    · intro y hy
      have hmem : y ∈ T.toList := by
        rw [hsplit]
        exact List.mem_append_right _ (List.mem_of_head? hy)
      have hgo := hhead y hy
      rw [goesLeft_of_keyFree (hne y hmem)] at hgo
      exact of_decide_eq_true hgo
  · intro other hother
    show t'.key (udpNode other) = ls.keyOf other
    rw [hkeys]
    rcases List.mem_cons.mp hother with rfl | hother
    · exact hkey
    · exact h.keys other hother
  · exact hsent.trans h.sentinel
  · intro other hother
    rcases List.mem_cons.mp hother with rfl | hother
    · exact hbound
    · exact h.bound other hother

/-- The order without one of its connections. -/
theorem Ordered.delete (h : ls.Ordered T) {id : Nat} (hid : id ∈ ls.alive) :
    ∃ t' T', ngxRbtreeDelete ls.fuel ls.rbtree (udpNode id) = some t' ∧
      Ordered { ls with rbtree := t', alive := ls.alive.erase id } T' := by
  have hfuel : T.toList.length + 1 < ls.fuel := by
    rw [h.length, fuel]
    omega
  obtain ⟨t', T', l₁, l₂, hdel, hvalid, hsplit, helems, hkeys, hsent⟩ :=
    ngxRbtreeDelete_valid h.valid (h.mem_iff.mpr hid) hfuel
  have hnodup : T.toList.Nodup := by
    have hrep := h.valid.rep.nodup
    simpa using hrep
  have halive : ls.alive.Nodup := List.Nodup.of_map _ (h.nodes.nodup_iff.mp hnodup)
  have hsub : ∀ other ∈ ls.alive.erase id, other ∈ ls.alive ∧ other ≠ id := fun other hother =>
    ⟨List.mem_of_mem_erase hother, fun heq => halive.not_mem_erase (heq ▸ hother)⟩
  have hout : ∀ y ∈ T'.toList, y ≠ udpNode id := by
    intro y hy heq
    rw [hsplit] at hnodup
    rw [helems] at hy
    have hperm := List.perm_middle.nodup_iff.mp hnodup
    exact (List.nodup_cons.mp hperm).1 (heq ▸ hy)
  refine ⟨t', T', hdel, hvalid, ?_, ?_, ?_, ?_, ?_⟩
  · show T'.toList.Perm ((ls.alive.erase id).map udpNode)
    apply List.Perm.cons_inv (a := udpNode id)
    calc udpNode id :: T'.toList = udpNode id :: (l₁ ++ l₂) := by rw [helems]
      _ |>.Perm (l₁ ++ udpNode id :: l₂) := List.perm_middle.symm
      _ |>.Perm (ls.alive.map udpNode) := hsplit ▸ h.nodes
      _ |>.Perm (udpNode id :: (ls.alive.erase id).map udpNode) := (List.perm_cons_erase hid).map udpNode
  · have hsublist : T'.toList.Sublist T.toList := by
      rw [hsplit, helems]
      exact (List.sublist_cons_self _ _).append_left l₁
    refine (h.sorted.sublist hsublist).imp_of_mem ?_
    intro m n hm hn hlt
    show t'.key m < t'.key n
    rwa [hkeys m (hout m hm), hkeys n (hout n hn)]
  · intro other hother
    obtain ⟨hmem, hne⟩ := hsub other hother
    show t'.key (udpNode other) = ls.keyOf other
    rw [hkeys _ (fun heq => hne (by simpa [udpNode] using heq))]
    exact h.keys other hmem
  · exact hsent.trans h.sentinel
  · intro other hother
    exact h.bound other (hsub other hother).1

/-- The table before the first call. -/
theorem ordered_start (wildcard : Bool) (memory : RbTree) (conns : Nat → UdpConnection) :
    (udpStart wildcard memory conns).Ordered .leaf := by
  constructor
  · exact valid_init memory udpSentinel
  · exact List.Perm.refl _
  · exact List.Pairwise.nil
  · intro id hid
    exact absurd hid List.not_mem_nil
  · rfl
  · intro id hid
    exact absurd hid List.not_mem_nil

/-- One call on an ordered table. -/
theorem Ordered.step (h : ls.Ordered T) {call : UdpCall} (hfree : ls.KeyFree call) :
    ∃ ls' T', udpStep (some ls) call = some ls' ∧ ls'.Ordered T' := by
  cases call with
  | insert id c alloc cleanup =>
      rw [udpStep, Option.bind_some]
      simp only [ngxInsertUdpConnection]
      by_cases hid : id ∈ ls.alive
      · rw [if_pos hid]
        exact ⟨ls, T, rfl, h⟩
      · rw [if_neg hid]
        obtain ⟨hbound, hnew⟩ := hfree hid
        have hwrite := h.write hid c
        cases alloc with
        | false =>
            have hsame := hwrite (ls.rbtree.key (udpNode id))
            rw [setKey, Function.update_eq_self] at hsame
            exact ⟨_, T, rfl, hsame⟩
        | true =>
            cases cleanup with
            | false => exact ⟨_, T, rfl, hwrite _⟩
            | true =>
                have hentered := hwrite (udpHash ls.wildcard c.sockaddr c.localSockaddr).toNat
                obtain ⟨t', T', hins, hordered⟩ := hentered.insert hid (by simp [keyOf]) (by
                  intro other hother heq
                  have hne : other ≠ id := fun hsame => hid (hsame ▸ hother)
                  apply hnew other hother
                  apply UInt32.toNat_inj.mp
                  simpa [keyOf, hne] using heq) (by simpa using hbound)
                refine ⟨_, T', ?_, hordered⟩
                have hins' : ngxRbtreeInsert (ngxUdpRbtreeInsertValue
                    { ls with conns := Function.update ls.conns id c }) (ls.alive.length + 3)
                    (ls.rbtree.setKey (udpNode id) (udpHash ls.wildcard c.sockaddr c.localSockaddr).toNat)
                    (udpNode id) = some t' := hins
                simp [fuel, hins']
  | delete id =>
      rw [udpStep, Option.bind_some]
      simp only [ngxDeleteUdpConnection]
      by_cases hid : id ∈ ls.alive
      · obtain ⟨t', T', hdel, hordered⟩ := h.delete hid
        rw [if_neg (not_not.mpr hid), hdel]
        exact ⟨_, T', rfl, hordered⟩
      · rw [if_pos hid]
        exact ⟨ls, T, rfl, h⟩

end UdpListening

/-- In every run that enters no connection under a key in use, the loops of the tree end, and every connection
that is alive is found by its addresses, while addresses of none find nothing. -/
theorem lookupRight_of_keyFree (wildcard : Bool) (memory : RbTree) (conns : Nat → UdpConnection)
    (calls : List UdpCall)
    (hcalls : Along udpStep (fun st call => ∀ ls ∈ st, ls.KeyFree call)
      (some (udpStart wildcard memory conns)) calls) :
    ∃ ls, run udpStep (some (udpStart wildcard memory conns)) calls = some ls ∧ ls.LookupRight := by
  have hinv := run_invariant (I := fun st => ∃ ls T, st = some ls ∧ ls.Ordered T)
    (by
      rintro _ call ⟨ls, T, rfl, h⟩ hfree
      obtain ⟨ls', T', hstep, h'⟩ := h.step (hfree ls rfl)
      exact ⟨ls', T', hstep, h'⟩)
    ⟨_, _, rfl, UdpListening.ordered_start wildcard memory conns⟩ hcalls
  obtain ⟨ls, T, hrun, h⟩ := hinv
  exact ⟨ls, hrun, h.lookupRight⟩

/-- A client of the internet family on a listener at `192.168.0.1:53`. -/
def inetClient (port : UInt16) (a b c d : UInt8) : UdpConnection :=
  ⟨.inet port #v[a, b, c, d], .inet 53 #v[192, 168, 0, 1]⟩

/-- Memory of zeros. -/
def zeroMemory : RbTree := ⟨fun _ => 0, fun _ _ => 0, fun _ => 0, fun _ => false, 0, 0⟩

/-- A client comes, another one comes, and the first one leaves. -/
theorem lookupRight_two_clients :
    ∃ ls, run udpStep (some (udpStart true zeroMemory fun _ => inetClient 0 0 0 0 0))
      [.insert 0 (inetClient 5000 10 0 0 1) true true, .insert 1 (inetClient 5001 10 0 0 2) true true,
        .delete 0] = some ls ∧ ls.LookupRight := by
  apply lookupRight_of_keyFree
  decide +kernel

/-- Three clients whose addresses have the same checksum. -/
def sameKeyCalls : List UdpCall :=
  [.insert 0 (inetClient 5000 10 0 0 1) true true, .insert 1 (inetClient 5086 203 244 8 131) true true,
    .insert 2 (inetClient 4844 10 148 196 82) true true]

/-- The third one rotates the tree, and the first one is not found any more. -/
theorem lookup_lost :
    ¬∀ (wildcard : Bool) (memory : RbTree) (conns : Nat → UdpConnection) (calls : List UdpCall),
      Along udpStep (fun st call => ∀ ls ∈ st, ls.Fresh call) (some (udpStart wildcard memory conns)) calls →
        ∃ ls, run udpStep (some (udpStart wildcard memory conns)) calls = some ls ∧ ls.LookupRight := by
  intro h
  obtain ⟨ls, hrun, hright⟩ :=
    h false zeroMemory (fun _ => inetClient 0 0 0 0 0) sameKeyCalls (by decide +kernel)
  have hmiss : (run udpStep (some (udpStart false zeroMemory fun _ => inetClient 0 0 0 0 0)) sameKeyCalls).map
      (fun ls => (ls.alive, ngxLookupUdpConnection ls (ls.conns 0).sockaddr (ls.conns 0).localSockaddr)) =
        some ([2, 1, 0], some none) := by decide +kernel
  rw [hrun] at hmiss
  obtain ⟨halive, hlookup⟩ : ls.alive = [2, 1, 0] ∧
      ngxLookupUdpConnection ls (ls.conns 0).sockaddr (ls.conns 0).localSockaddr = some none := by
    simpa using hmiss
  have hfound := hright.found 0 (by simp [halive])
  rw [hlookup] at hfound
  exact absurd hfound (by decide)

end NginxDtls
