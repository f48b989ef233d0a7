import NginxDtls.Connections

/-! Slots and descriptors are neither lost nor given back twice, as long as no call of `ngx_event_udp_accept` gets past
`socket` and then fails. After such a failure the descriptor of the connection is -1, which `ngx_close_connection`
reads as closed already: the slot is never freed. -/

namespace NginxDtls

open Run

/-! ### The descriptors of the connections -/

/-- A shared connection uses the descriptor of its listening socket and owns none. -/
def Connection.owns (conn : Connection) : List ℤ := if conn.shared then [] else [conn.fd]

def ownedBy (conns : ℕ → Connection) (l : List ℕ) : List ℤ := l.flatMap fun c => (conns c).owns

theorem mem_ownedBy {conns : ℕ → Connection} {l : List ℕ} {c : ℕ} (hc : c ∈ l) (hs : (conns c).shared = false) :
    (conns c).fd ∈ ownedBy conns l := by
  refine List.mem_flatMap.mpr ⟨c, hc, ?_⟩
  simp [Connection.owns, hs]

theorem ownedBy_update_of_notMem (conns : ℕ → Connection) {l : List ℕ} {c : ℕ} (hc : c ∉ l) (conn : Connection) :
    ownedBy (Function.update conns c conn) l = ownedBy conns l := by
  refine List.flatMap_congr fun i hi => ?_
  have hne : i ≠ c := fun h => hc (h ▸ hi)
  rw [Function.update_of_ne hne]

theorem ownedBy_perm_of_mem (conns : ℕ → Connection) {l : List ℕ} {c : ℕ} (hc : c ∈ l) :
    (ownedBy conns l).Perm ((conns c).owns ++ ownedBy conns (l.erase c)) :=
  (List.perm_cons_erase hc).flatMap_right _

/-- Only the part of the changed connection changes. -/
theorem ownedBy_update_of_mem (conns : ℕ → Connection) {l : List ℕ} {c : ℕ} (hl : l.Nodup) (hc : c ∈ l)
    (conn : Connection) :
    (ownedBy (Function.update conns c conn) l).Perm (conn.owns ++ ownedBy conns (l.erase c)) := by
  have hperm := ownedBy_perm_of_mem (Function.update conns c conn) hc
  have hnot : c ∉ l.erase c := fun h => (hl.mem_erase_iff.mp h).1 rfl
  rwa [Function.update_self, ownedBy_update_of_notMem conns hnot] at hperm

theorem ngxSocket_nonneg (w : Worker) : 0 ≤ ngxSocket w := Int.natCast_nonneg _

/-- Among one number more than there are descriptors, one is free. -/
theorem ngxSocket_notMem (w : Worker) : ngxSocket w ∉ w.opened := by
  have hfree : ∃ k ∈ List.range (w.opened.length + 1), (k : ℤ) ∉ w.opened := by
    by_contra hall
    push Not at hall
    have hsub : ((List.range (w.opened.length + 1)).map fun k : ℕ => (k : ℤ)) ⊆ w.opened := by
      intro fd hfd
      obtain ⟨k, hk, rfl⟩ := List.mem_map.mp hfd
      exact hall k hk
    have hnodup : ((List.range (w.opened.length + 1)).map fun k : ℕ => (k : ℤ)).Nodup :=
      List.nodup_range.map fun _ _ h => Int.ofNat_inj.mp h
    have hlen := (hnodup.subperm hsub).length_le
    simp at hlen
  obtain ⟨k, hk, hkw⟩ := hfree
  have hsome : ((List.range (w.opened.length + 1)).find? fun k : ℕ => decide ((k : ℤ) ∉ w.opened)).isSome :=
    List.find?_isSome.mpr ⟨k, hk, by simpa using hkw⟩
  obtain ⟨m, hm⟩ := Option.isSome_iff_exists.mp hsome
  have hmw := List.find?_some hm
  rw [ngxSocket, hm]
  simpa using hmw

/-! ### What holds between steps -/

/-- A shared connection came in at a listening socket and uses its descriptor; it is never the client of a
handshake. -/
def Connection.Fits (fds : List ℤ) (conn : Connection) : Prop :=
  conn.shared → conn.listening.isSome ∧ conn.ssl ≠ some .client ∧ conn.fd ∈ fds

def Worker.listeningFds (w : Worker) : List ℤ := w.listeners.map fun lc => (w.connections lc).fd

/-- Every slot is on the free list or held, and only once; the open descriptors are those of the connections and the
others. -/
structure Worker.Sound (others : List ℤ) (w : Worker) : Prop where
  slots : (w.freeConnections ++ w.live).Perm (List.range w.connectionN)
  count : w.freeConnectionN = w.freeConnections.length
  sockets : w.opened.Perm (others ++ ownedBy w.connections w.live)
  nodup : w.opened.Nodup
  nonneg : ∀ fd ∈ w.opened, 0 ≤ fd
  listening : ∀ lc ∈ w.listeners, (w.connections lc).shared = false
  fits : ∀ c ∈ w.sessions, (w.connections c).Fits w.listeningFds
  accepts : ∀ a ∈ w.accepts, a.closed ⊆ a.opened

/-- The worker after the end of a session whose connection was open. -/
theorem close_eq {w : Worker} {c : ℕ} (hfd : (w.connections c).fd ≠ -1) :
    (ngxCloseConnection w c).endSession c =
      { w with
        connections := Function.update w.connections c { w.connections c with fd := -1 }
        freeConnections := c :: w.freeConnections
        freeConnectionN := w.freeConnectionN + 1
        files := (ngxFreeConnection w c).files
        opened := if (w.connections c).shared then w.opened else w.opened.erase (w.connections c).fd
        sessions := w.sessions.erase c } := by
  rw [ngxCloseConnection]
  simp only [if_neg hfd]
  split <;> rfl

namespace Worker.Sound

variable {others : List ℤ} {w w' : Worker} {c : ℕ} {conn : Connection}

theorem all_nodup (h : w.Sound others) : (w.freeConnections ++ w.live).Nodup :=
  h.slots.nodup_iff.mpr List.nodup_range

theorem live_nodup (h : w.Sound others) : w.live.Nodup := (List.nodup_append.mp h.all_nodup).2.1

theorem free_notMem_live (h : w.Sound others) {rest : List ℕ} (hfree : w.freeConnections = c :: rest) :
    c ∉ w.live := by
  have hnodup := h.all_nodup
  rw [hfree, List.cons_append, List.nodup_cons] at hnodup
  exact fun hc => hnodup.1 (List.mem_append_right _ hc)

theorem session_notMem_listeners (h : w.Sound others) (hc : c ∈ w.sessions) : c ∉ w.listeners := by
  intro hlc
  exact (List.nodup_append.mp h.live_nodup).2.2 c hlc c hc rfl

theorem owned_nonneg (h : w.Sound others) (hc : c ∈ w.live) (hs : (w.connections c).shared = false) :
    0 ≤ (w.connections c).fd :=
  h.nonneg _ (h.sockets.mem_iff.mpr (List.mem_append_right _ (mem_ownedBy hc hs)))

theorem listeningFds_nonneg (h : w.Sound others) {fd : ℤ} (hfd : fd ∈ w.listeningFds) : 0 ≤ fd := by
  obtain ⟨lc, hlc, rfl⟩ := List.mem_map.mp hfd
  exact h.owned_nonneg (List.mem_append_left _ hlc) (h.listening lc hlc)

theorem session_fd_ne (h : w.Sound others) (hc : c ∈ w.sessions) : (w.connections c).fd ≠ -1 := by
  have hnonneg : 0 ≤ (w.connections c).fd := by
    by_cases hs : (w.connections c).shared
    · exact h.listeningFds_nonneg (h.fits c hc hs).2.2
    · exact h.owned_nonneg (List.mem_append_right _ hc) (by simpa using hs)
  omega

/-! ### A connection that changes -/

variable (hc : c ∉ w.listeners)

include hc

theorem update_listening (h : w.Sound others) :
    ∀ lc ∈ w.listeners, (Function.update w.connections c conn lc).shared = false := by
  intro lc hlc
  have hne : lc ≠ c := fun heq => hc (heq ▸ hlc)
  rw [Function.update_of_ne hne]
  exact h.listening lc hlc

theorem update_listeningFds :
    (w.listeners.map fun lc => (Function.update w.connections c conn lc).fd) = w.listeningFds := by
  refine List.map_congr_left fun lc hlc => ?_
  have hne : lc ≠ c := fun heq => hc (heq ▸ hlc)
  rw [Function.update_of_ne hne]

theorem update_fits (h : w.Sound others) {l : List ℕ} (hconn : c ∈ l → conn.Fits w.listeningFds)
    (hl : ∀ i ∈ l, i = c ∨ i ∈ w.sessions) :
    ∀ i ∈ l, (Function.update w.connections c conn i).Fits
      (w.listeners.map fun lc => (Function.update w.connections c conn lc).fd) := by
  intro i hi
  rw [update_listeningFds hc]
  by_cases hic : i = c
  · rw [hic, Function.update_self]
    exact hconn (hic ▸ hi)
  · rw [Function.update_of_ne hic]
    exact h.fits i ((hl i hi).resolve_left hic)

omit hc

/-- The connection of a session changes, and the open descriptors with it. -/
theorem change (h : w.Sound others) (hc : c ∈ w.sessions) (hconn : conn.Fits w.listeningFds) {opened : List ℤ}
    (hopened : ((w.connections c).owns ++ opened).Perm (conn.owns ++ w.opened)) (hnodup : opened.Nodup)
    (hnonneg : ∀ fd ∈ opened, 0 ≤ fd) :
    ({ w with connections := Function.update w.connections c conn, opened := opened } : Worker).Sound others := by
  have hnot := h.session_notMem_listeners hc
  have hlive : c ∈ w.live := List.mem_append_right _ hc
  refine ⟨h.slots, h.count, ?_, hnodup, hnonneg, h.update_listening hnot, ?_, h.accepts⟩
  · have hbefore := h.sockets.trans ((ownedBy_perm_of_mem w.connections hlive).append_left others)
    have hafter := ownedBy_update_of_mem w.connections h.live_nodup hlive conn
    show opened.Perm (others ++ ownedBy (Function.update w.connections c conn) w.live)
    refine List.Perm.trans ?_ (hafter.append_left others).symm
    rw [List.perm_iff_count] at hopened hbefore ⊢
    intro fd
    have h1 := hopened fd
    have h2 := hbefore fd
    simp only [List.count_append] at h1 h2 ⊢
    omega
  · exact h.update_fits hnot (fun _ => hconn) fun i hi => Or.inr hi

/-- A slot leaves the free list for a new session. -/
theorem take (h : w.Sound others) {rest : List ℕ} (hfree : w.freeConnections = c :: rest) (conn : Connection)
    (hconn : conn.Fits w.listeningFds) (hnodup : (conn.owns ++ w.opened).Nodup) (hnonneg : ∀ fd ∈ conn.owns, 0 ≤ fd)
    (files : Option (List (Option ℕ))) :
    ({ w with
      connections := Function.update w.connections c conn
      freeConnections := rest
      freeConnectionN := w.freeConnectionN - 1
      files := files
      opened := conn.owns ++ w.opened
      sessions := c :: w.sessions } : Worker).Sound others := by
  have hfresh := h.free_notMem_live hfree
  have hnot : c ∉ w.listeners := fun hc => hfresh (List.mem_append_left _ hc)
  have hlive : (w.listeners ++ c :: w.sessions).Perm (c :: w.live) := List.perm_middle
  refine ⟨?_, ?_, ?_, hnodup, ?_, h.update_listening hnot, ?_, h.accepts⟩
  · have hslots := h.slots
    rw [hfree] at hslots
    exact ((hlive.append_left rest).trans List.perm_middle).trans hslots
  · show w.freeConnectionN - 1 = rest.length
    rw [h.count, hfree, List.length_cons, Nat.add_sub_cancel]
  · have howned : (ownedBy (Function.update w.connections c conn) (w.listeners ++ c :: w.sessions)).Perm
        (conn.owns ++ ownedBy w.connections w.live) := by
      refine (hlive.flatMap_right _).trans (List.Perm.of_eq ?_)
      show (Function.update w.connections c conn c).owns ++ ownedBy (Function.update w.connections c conn) w.live = _
      rw [Function.update_self, ownedBy_update_of_notMem _ hfresh]
    show (conn.owns ++ w.opened).Perm
      (others ++ ownedBy (Function.update w.connections c conn) (w.listeners ++ c :: w.sessions))
    refine List.Perm.trans ?_ (howned.append_left others).symm
    have hsockets := h.sockets
    rw [List.perm_iff_count] at hsockets ⊢
    intro fd
    have h1 := hsockets fd
    simp only [List.count_append] at h1 ⊢
    omega
  · intro fd hfd
    obtain hfd | hfd := List.mem_append.mp hfd
    · exact hnonneg fd hfd
    · exact h.nonneg fd hfd
  · exact h.update_fits hnot (fun _ => hconn) fun i hi => List.mem_cons.mp hi

/-- What the connection owned is no longer open. -/
theorem owns_append_closed (h : w.Sound others) (hc : c ∈ w.sessions) :
    ((w.connections c).owns ++ if (w.connections c).shared then w.opened else w.opened.erase (w.connections c).fd).Perm
      w.opened := by
  have howns : ∀ fd ∈ (w.connections c).owns, fd ∈ w.opened := by
    intro fd hfd
    refine h.sockets.mem_iff.mpr (List.mem_append_right _ (List.mem_flatMap.mpr ⟨c, ?_, hfd⟩))
    exact List.mem_append_right _ hc
  rw [Connection.owns] at howns ⊢
  split
  · exact List.Perm.refl _
  · rename_i hs
    rw [if_neg hs] at howns
    exact (List.perm_cons_erase (howns _ (List.mem_singleton_self _))).symm

/-- Closing the connection of a session puts its slot back and closes what it owns. -/
theorem close (h : w.Sound others) (hc : c ∈ w.sessions) : ((ngxCloseConnection w c).endSession c).Sound others := by
  have hnot := h.session_notMem_listeners hc
  have hlive : c ∈ w.live := List.mem_append_right _ hc
  have herase : w.live.erase c = w.listeners ++ w.sessions.erase c := List.erase_append_right _ hnot
  have hnotErase : c ∉ w.live.erase c := fun hmem => (h.live_nodup.mem_erase_iff.mp hmem).1 rfl
  have hslots : (c :: w.freeConnections ++ (w.listeners ++ w.sessions.erase c)).Perm (List.range w.connectionN) := by
    rw [← herase]
    exact (List.perm_middle.symm.trans ((List.perm_cons_erase hlive).symm.append_left _)).trans h.slots
  have hclosed := h.owns_append_closed hc
  have hsub : (if (w.connections c).shared then w.opened else w.opened.erase (w.connections c).fd).Sublist w.opened := by
    split
    · exact List.Sublist.refl _
    · exact List.erase_sublist
  rw [close_eq (h.session_fd_ne hc)]
  refine ⟨hslots, congrArg (· + 1) h.count, ?_, h.nodup.sublist hsub, fun fd hfd => h.nonneg fd (hsub.subset hfd),
    h.update_listening hnot, ?_, h.accepts⟩
  · have hbefore := h.sockets.trans ((ownedBy_perm_of_mem w.connections hlive).append_left others)
    show (if (w.connections c).shared then w.opened else w.opened.erase (w.connections c).fd).Perm
      (others ++ ownedBy (Function.update w.connections c _) (w.listeners ++ w.sessions.erase c))
    rw [← herase, ownedBy_update_of_notMem _ hnotErase]
    rw [List.perm_iff_count] at hclosed hbefore ⊢
    intro fd
    have h1 := hclosed fd
    have h2 := hbefore fd
    simp only [List.count_append] at h1 h2 ⊢
    omega
  · have hsessions : c ∉ w.sessions.erase c := by
      rw [herase] at hnotErase
      exact fun hmem => hnotErase (List.mem_append_right _ hmem)
    exact h.update_fits hnot (fun hmem => absurd hmem hsessions) fun i hi => Or.inr (List.mem_of_mem_erase hi)

end Worker.Sound

/-! ### Steps -/

variable {others : List ℤ} {w : Worker} {c : ℕ}

/-- `ngx_get_connection` takes the head of the free list. -/
theorem ngxGetConnection_cases {s : ℤ} {w' : Worker} (h : ngxGetConnection w s = some (c, w')) :
    ∃ rest files, w.freeConnections = c :: rest ∧
      w' = { w with
        connections := Function.update w.connections c { fd := s }
        freeConnections := rest
        freeConnectionN := w.freeConnectionN - 1
        files := files } := by
  rw [ngxGetConnection] at h
  split at h
  · cases h
  · split at h
    · cases h
    · rename_i i rest hfree
      cases h
      exact ⟨rest, _, hfree, rfl⟩

/-- A slot that is given back at once was held for no longer than the call. -/
theorem close_startSession (w : Worker) (c : ℕ) :
    (ngxCloseConnection (w.startSession c) c).endSession c = ngxCloseConnection w c := by
  have hsessions : (w.startSession c).sessions.erase c = w.sessions := List.erase_cons_head c w.sessions
  have hconn : (w.startSession c).connections c = w.connections c := rfl
  by_cases hfd : (w.connections c).fd = -1
  · simp only [ngxCloseConnection, hconn, if_pos hfd, Worker.endSession, hsessions]
    rfl
  · by_cases hs : (w.connections c).shared
    · simp only [ngxCloseConnection, hconn, if_neg hfd, if_pos hs]
      exact congrArg (fun l => { (ngxCloseAcceptedUdpConnection w c) with sessions := l }) hsessions
    · simp only [ngxCloseConnection, hconn, if_neg hfd, if_neg hs]
      exact congrArg (fun l =>
        { ngxCloseSocket (ngxCloseAcceptedUdpConnection w c) (w.connections c).fd with sessions := l }) hsessions

theorem ngxCloseAcceptedUdpConnection_eq (hs : (w.connections c).shared = true) (hfd : (w.connections c).fd ≠ -1) :
    ngxCloseAcceptedUdpConnection w c = ngxCloseConnection w c := by
  rw [ngxCloseConnection]
  simp only [if_neg hfd, hs, if_true]
  rfl

theorem Worker.Sound.recvmsg (h : w.Sound others) {lc : ℕ} (hlc : lc ∈ w.listeners) (setup : Bool) :
    (ngxEventRecvmsg w lc setup).Sound others := by
  rw [ngxEventRecvmsg]
  split
  · exact h
  · rename_i c w' hget
    obtain ⟨rest, files, hfree, rfl⟩ := ngxGetConnection_cases hget
    have hfd : (w.connections lc).fd ∈ w.listeningFds := List.mem_map_of_mem hlc
    have htake := h.take hfree { fd := (w.connections lc).fd, shared := true, listening := some lc }
      (fun _ => ⟨rfl, by simp, hfd⟩) h.nodup (by simp [Connection.owns]) files
    simp only [Worker.modify, Function.update_self, Function.update_idem]
    split
    · exact htake
    · have hclose := htake.close (List.mem_cons_self)
      have hne : (w.connections lc).fd ≠ -1 := by
        have := h.listeningFds_nonneg hfd
        omega
      rw [ngxCloseAcceptedUdpConnection_eq (by simp) (by simpa using hne), ← close_startSession]
      exact hclose

theorem Worker.Sound.connectPeer (h : w.Sound others) (socket setup : Bool) :
    (ngxEventConnectPeer w socket setup).Sound others := by
  rw [ngxEventConnectPeer]
  split
  · have hfresh := ngxSocket_notMem w
    have hnonneg := ngxSocket_nonneg w
    dsimp only
    split
    · simpa [ngxCloseSocket, Worker.open] using h
    · rename_i c w' hget
      obtain ⟨rest, files, hfree, rfl⟩ := ngxGetConnection_cases hget
      have htake := h.take hfree { fd := ngxSocket w } (fun hs => absurd hs (by simp))
        (List.nodup_cons.mpr ⟨hfresh, h.nodup⟩) (by simpa [Connection.owns] using hnonneg) files
      split
      · exact htake
      · have hclose := htake.close (List.mem_cons_self)
        rw [← close_startSession]
        exact hclose
  · exact h

/-- The SSL object of a connection changes, and nothing the pool counts. -/
theorem Worker.Sound.setSsl (h : w.Sound others) (hc : c ∈ w.sessions) {ssl : Option SslRole}
    (hssl : (w.connections c).shared → ssl ≠ some .client) :
    (w.modify c fun conn => { conn with ssl := ssl }).Sound others := by
  refine h.change hc ?_ (List.Perm.refl _) h.nodup h.nonneg
  intro hs
  have hfits := h.fits c hc hs
  exact ⟨hfits.1, hssl hs, hfits.2.2⟩

/-! ### The accepting of a connection -/

/-- `ngx_add_conn` does not fail where it is called. -/
def Worker.AddConnSucceeds (w : Worker) (calls : AcceptCalls) : Prop :=
  w.ngxAddConn = true → w.useEpollEvent = false → calls.addConn = true

/-- After `socket`, no call of the server side fails. -/
def Worker.ServerCallsSucceed (w : Worker) (calls : AcceptCalls) : Prop :=
  calls.socket = true → calls.nonblocking = true ∧ calls.setsockopt = true ∧ calls.bind = true ∧
    calls.connect = true ∧ w.AddConnSucceeds calls

/-- Where the step runs `ngx_event_udp_accept`, no call of it fails after `socket`. -/
def Worker.CallsSucceed (w : Worker) : WorkerEvent → Prop
  | .acceptShared c calls =>
    c ∈ w.sessions → (w.connections c).shared = true → (w.connections c).ssl.isSome → w.ServerCallsSucceed calls
  | .sslInitUpstream c calls => c ∈ w.sessions → (w.connections c).listening = none → w.AddConnSucceeds calls
  | _ => True

theorem acceptConnection_eq {calls : AcceptCalls} (hadd : w.AddConnSucceeds calls) (fd : ℤ) (opened : List ℤ) :
    acceptConnection w c fd opened calls =
      { worker := w.modify c fun conn => { conn with shared := false }, ok := true,
        log := { opened, closed := [] } } := by
  rw [acceptConnection]
  refine if_neg ?_
  simp only [Worker.modify, Bool.and_eq_true, Bool.not_eq_true', not_and, Bool.not_eq_false]
  rintro ⟨hconn, hepoll⟩
  exact hadd hconn hepoll

/-- The server side, when `socket` and all that follows succeed. -/
theorem ngxEventUdpAccept_server {calls : AcceptCalls} (hserver : (w.connections c).ssl = some .server)
    (hsocket : calls.socket = true) (hcalls : w.ServerCallsSucceed calls) :
    ngxEventUdpAccept w c calls =
      { worker := { w with
          connections := Function.update w.connections c { w.connections c with fd := ngxSocket w, shared := false }
          opened := ngxSocket w :: w.opened }
        ok := true
        log := { opened := [ngxSocket w], closed := [] } } := by
  obtain ⟨hnonblocking, hsetsockopt, hbind, hconnect, hadd⟩ := hcalls hsocket
  have hopen : ((w.open (ngxSocket w)).modify c fun conn => { conn with fd := ngxSocket w }).AddConnSucceeds calls :=
    hadd
  rw [ngxEventUdpAccept, if_pos hserver, if_pos hsocket]
  simp only [hnonblocking, hsetsockopt, hbind, hconnect, Bool.and_self, if_true, acceptConnection_eq hopen]
  simp only [Worker.modify, Worker.open, Function.update_self, Function.update_idem]

theorem Worker.Sound.log (h : w.Sound others) {a : AcceptLog} (ha : a.closed = []) :
    ({ w with accepts := a :: w.accepts } : Worker).Sound others := by
  refine ⟨h.slots, h.count, h.sockets, h.nodup, h.nonneg, h.listening, h.fits, ?_⟩
  intro b hb
  obtain rfl | hb := List.mem_cons.mp hb
  · rw [ha]
    exact List.nil_subset _
  · exact h.accepts b hb

/-- A shared connection gets a descriptor of its own. -/
theorem Worker.Sound.acceptShared (h : w.Sound others) {calls : AcceptCalls} (hc : c ∈ w.sessions)
    (hs : (w.connections c).shared) (hssl : (w.connections c).ssl.isSome)
    (hcalls : w.ServerCallsSucceed calls) : (w.accept c calls).Sound others := by
  have hserver : (w.connections c).ssl = some .server := by
    have hclient := (h.fits c hc hs).2.1
    obtain ⟨role, hrole⟩ := Option.isSome_iff_exists.mp hssl
    cases role with
    | server => exact hrole
    | client => exact absurd hrole hclient
  by_cases hsocket : calls.socket
  · rw [Worker.accept, ngxEventUdpAccept_server hserver hsocket hcalls]
    refine Worker.Sound.log ?_ rfl
    refine h.change hc (fun hfalse => absurd hfalse (by simp)) ?_ ?_ ?_
    · simp [Connection.owns, hs]
    · exact List.nodup_cons.mpr ⟨ngxSocket_notMem w, h.nodup⟩
    · intro fd hfd
      obtain rfl | hfd := List.mem_cons.mp hfd
      · exact ngxSocket_nonneg w
      · exact h.nonneg fd hfd
  · rw [Worker.accept, ngxEventUdpAccept, if_pos hserver, if_neg hsocket]
    exact h.log rfl

/-- The connection to an upstream keeps its descriptor. -/
theorem Worker.Sound.acceptClient (h : w.Sound others) {calls : AcceptCalls} (hc : c ∈ w.sessions)
    (hs : (w.connections c).shared = false) (hssl : (w.connections c).ssl = some .client)
    (hadd : w.AddConnSucceeds calls) : (w.accept c calls).Sound others := by
  have hserver : (w.connections c).ssl ≠ some .server := by simp [hssl]
  rw [Worker.accept, ngxEventUdpAccept, if_neg hserver, acceptConnection_eq hadd]
  refine Worker.Sound.log ?_ rfl
  refine h.change hc (fun hfalse => absurd hfalse (by simp)) ?_ h.nodup h.nonneg
  simp [Connection.owns, hs]

/-! ### Every step -/

theorem Worker.Sound.step (h : w.Sound others) {e : WorkerEvent} (hok : w.CallsSucceed e) :
    (w.step e).Sound others := by
  cases e with
  | recvmsg l setup =>
    rw [Worker.step]
    split
    · exact h
    · rename_i lc hlc
      exact h.recvmsg (List.mem_of_getElem? hlc) setup
  | createSsl c =>
    rw [Worker.step]
    split
    · rename_i hc
      exact h.setSsl hc.1 fun _ => by simp
    · exact h
  | acceptShared c calls =>
    rw [Worker.step]
    split
    · rename_i hc
      exact h.acceptShared hc.1 hc.2.1 hc.2.2 (hok hc.1 hc.2.1 hc.2.2)
    · exact h
  | connectPeer socket setup => exact h.connectPeer socket setup
  | sslInitUpstream c calls =>
    rw [Worker.step]
    split
    · rename_i hc
      have hs : (w.connections c).shared = false := by
        by_contra hs
        have := (h.fits c hc.1 (by simpa using hs)).1
        simp [hc.2] at this
      have hset : (w.modify c fun conn => { conn with ssl := some .client }).Sound others :=
        h.setSsl hc.1 fun hs' => by simp [hs] at hs'
      exact hset.acceptClient hc.1 (by simpa [Worker.modify] using hs) (by simp [Worker.modify]) (hok hc.1 hc.2)
    · exact h
  | closeSession c again =>
    rw [Worker.step]
    split
    · rename_i hc
      rw [ngxStreamCloseConnection]
      split
      · exact h
      · exact (h.setSsl hc.1 fun _ => by simp).close hc.1
    · exact h
  | closeUpstream c =>
    rw [Worker.step]
    split
    · rename_i hc
      exact (h.setSsl hc.1 fun _ => by simp).close hc.1
    · exact h

/-! ### The start -/

/-- A listening socket gets a connection while the worker has no sessions yet. -/
theorem Worker.Sound.listenOne {fd : ℤ} {w' : Worker} (h : w.Sound (fd :: others)) (hsessions : w.sessions = [])
    (hget : ngxGetConnection w fd = some (c, w')) :
    ({ w' with listeners := c :: w'.listeners } : Worker).Sound others := by
  obtain ⟨rest, files, hfree, rfl⟩ := ngxGetConnection_cases hget
  have hnot := h.free_notMem_live hfree
  have hlisteners : c ∉ w.listeners := fun hc => hnot (List.mem_append_left _ hc)
  refine ⟨?_, ?_, ?_, h.nodup, h.nonneg, ?_, ?_, h.accepts⟩
  · have hslots := h.slots
    rw [hfree] at hslots
    exact List.perm_middle.trans hslots
  · show w.freeConnectionN - 1 = rest.length
    rw [h.count, hfree, List.length_cons, Nat.add_sub_cancel]
  · have howned : ownedBy (Function.update w.connections c { fd := fd }) (c :: w.live) =
        fd :: ownedBy w.connections w.live := by
      show (Function.update w.connections c { fd := fd } c).owns ++ ownedBy _ w.live = _
      rw [Function.update_self, ownedBy_update_of_notMem _ hnot]
      rfl
    show w.opened.Perm (others ++ ownedBy (Function.update w.connections c { fd := fd }) (c :: w.live))
    rw [howned]
    exact h.sockets.trans List.perm_middle.symm
  · intro lc hlc
    obtain rfl | hlc := List.mem_cons.mp hlc
    · show (Function.update w.connections lc { fd := fd } lc).shared = false
      rw [Function.update_self]
    · exact h.update_listening hlisteners lc hlc
  · intro i hi
    have hnone : i ∈ w.sessions := hi
    rw [hsessions] at hnone
    cases hnone

theorem listen_sound {fds : List ℤ} {w' : Worker} (h : w.Sound (fds ++ others)) (hsessions : w.sessions = [])
    (hlisten : listen fds w = some w') : w'.Sound others := by
  induction fds generalizing w with
  | nil =>
    cases hlisten
    exact h
  | cons fd fds ih =>
    rw [listen] at hlisten
    split at hlisten
    · cases hlisten
    · rename_i c w1 hget
      have hone := h.listenOne hsessions hget
      refine ih hone ?_ hlisten
      obtain ⟨rest, files, -, rfl⟩ := ngxGetConnection_cases hget
      exact hsessions

theorem ngxEventProcessInit_sound {n : ℕ} {d : Descriptors} {filesN : Option ℕ} {addConn epoll : Bool}
    (h : ngxEventProcessInit n d filesN addConn epoll = some w) : w.Sound d.others := by
  refine listen_sound ?_ rfl h
  refine ⟨?_, ?_, ?_, d.nodup, d.nonneg, ?_, ?_, ?_⟩
  · simp [Worker.live]
  · simp
  · simp [Worker.live, ownedBy]
  · simp
  · simp
  · simp

/-! ### Runs -/

/-- The slot of a connection that a step lets go of is put on the free list. -/
def Worker.PutsBack (w : Worker) (e : WorkerEvent) : Prop :=
  ∀ c ∈ w.sessions, c ∉ (w.step e).sessions → (w.step e).freeConnections = c :: w.freeConnections

/-- No slot is lost or on the free list twice, the count agrees with the live connections, and accepting a connection
closed only what the same call had opened. -/
def Worker.Conserved (w : Worker) : Prop :=
  (w.freeConnections ++ w.live).Perm (List.range w.connectionN) ∧
    w.freeConnectionN + w.live.length = w.connectionN ∧ ∀ a ∈ w.accepts, a.closed ⊆ a.opened

theorem Worker.Sound.conserved (h : w.Sound others) : w.Conserved := by
  refine ⟨h.slots, ?_, h.accepts⟩
  have hlen := h.slots.length_eq
  rw [List.length_append, List.length_range] at hlen
  rw [h.count, hlen]

@[simp]
theorem ngxCloseConnection_sessions (w : Worker) (c : ℕ) : (ngxCloseConnection w c).sessions = w.sessions := by
  rw [ngxCloseConnection]
  dsimp only
  split
  · rfl
  · split <;> rfl

@[simp]
theorem accept_sessions (w : Worker) (c : ℕ) (calls : AcceptCalls) : (w.accept c calls).sessions = w.sessions := by
  simp only [Worker.accept, ngxEventUdpAccept, acceptConnection]
  split_ifs <;> rfl

theorem recvmsg_sessions (w : Worker) (lc : ℕ) (setup : Bool) :
    w.sessions ⊆ (ngxEventRecvmsg w lc setup).sessions := by
  rw [ngxEventRecvmsg]
  split
  · exact List.Subset.refl _
  · rename_i c w' hget
    obtain ⟨rest, files, -, rfl⟩ := ngxGetConnection_cases hget
    dsimp only
    split
    · exact List.subset_cons_self _ _
    · exact List.Subset.refl _

theorem connectPeer_sessions (w : Worker) (socket setup : Bool) :
    w.sessions ⊆ (ngxEventConnectPeer w socket setup).sessions := by
  rw [ngxEventConnectPeer]
  split
  · dsimp only
    split
    · exact List.Subset.refl _
    · rename_i c w' hget
      obtain ⟨rest, files, -, rfl⟩ := ngxGetConnection_cases hget
      split
      · exact List.subset_cons_self _ _
      · rw [ngxCloseConnection_sessions]
        exact List.Subset.refl _
  · exact List.Subset.refl _

/-- A step lets go of no connection, or closes one. -/
theorem step_sessions (w : Worker) (e : WorkerEvent) :
    w.sessions ⊆ (w.step e).sessions ∨
      ∃ c ∈ w.sessions,
        w.step e = (ngxCloseConnection (w.modify c fun conn => { conn with ssl := none }) c).endSession c := by
  cases e with
  | recvmsg l setup =>
    left
    rw [Worker.step]
    split
    · exact List.Subset.refl _
    · exact recvmsg_sessions w _ setup
  | createSsl c =>
    left
    rw [Worker.step]
    split <;> exact List.Subset.refl _
  | acceptShared c calls =>
    left
    rw [Worker.step]
    split
    · rw [accept_sessions]
      exact List.Subset.refl _
    · exact List.Subset.refl _
  | connectPeer socket setup => exact Or.inl (connectPeer_sessions w socket setup)
  | sslInitUpstream c calls =>
    left
    rw [Worker.step]
    split
    · rw [accept_sessions]
      exact List.Subset.refl _
    · exact List.Subset.refl _
  | closeSession c again =>
    rw [Worker.step]
    split
    · rename_i hc
      rw [ngxStreamCloseConnection]
      split
      · exact Or.inl (List.Subset.refl _)
      · exact Or.inr ⟨c, hc.1, rfl⟩
    · exact Or.inl (List.Subset.refl _)
  | closeUpstream c =>
    rw [Worker.step]
    split
    · rename_i hc
      exact Or.inr ⟨c, hc.1, rfl⟩
    · exact Or.inl (List.Subset.refl _)

theorem Worker.Sound.putsBack (h : w.Sound others) (e : WorkerEvent) : w.PutsBack e := by
  intro c hc hgone
  obtain hsub | ⟨i, hi, hstep⟩ := step_sessions w e
  · exact absurd (hsub hc) hgone
  · have hfd : ((w.modify i fun conn => { conn with ssl := none }).connections i).fd ≠ -1 := by
      simpa [Worker.modify] using h.session_fd_ne hi
    rw [hstep, close_eq hfd] at hgone ⊢
    have hic : c = i := by
      by_contra hne
      exact hgone ((List.mem_erase_of_ne hne).mpr hc)
    rw [hic]
    rfl

/-- In every run in which no call of `ngx_event_udp_accept` fails after `socket`, the slots of the worker are
conserved, and so are its descriptors: a slot returns to the free list when its session ends, and what is open at any
moment is what the connections own and what was open besides them. -/
theorem connections_conserved {n : ℕ} {d : Descriptors} {filesN : Option ℕ} {addConn epoll : Bool} {w : Worker}
    (hinit : ngxEventProcessInit n d filesN addConn epoll = some w) {es : List WorkerEvent}
    (hok : Along Worker.step Worker.CallsSucceed w es) :
    Along Worker.step Worker.PutsBack w es ∧ (run Worker.step w es).Conserved ∧
      (run Worker.step w es).opened.Perm
        (d.others ++ ownedBy (run Worker.step w es).connections (run Worker.step w es).live) := by
  have hstart := ngxEventProcessInit_sound hinit
  have hstep : ∀ w e, Worker.Sound d.others w → w.CallsSucceed e → (w.step e).Sound d.others :=
    fun w e hw he => hw.step he
  have hend := run_invariant hstep hstart hok
  exact ⟨along_of_invariant hstep (fun w e hw _ => hw.putsBack e) hstart hok, hend.conserved, hend.sockets⟩

/-- Descriptor 3 listens; the standard ones are open as well. -/
def oneListener : Descriptors where
  listening := [3]
  others := [0, 1, 2]
  nodup := by decide
  nonneg := by decide

def allCalls : AcceptCalls where
  socket := true
  nonblocking := true
  setsockopt := true
  bind := true
  connect := true
  addConn := true

/-- A client that completes the cookie exchange, and the end of its session. -/
def handshakeRun (calls : AcceptCalls) : List WorkerEvent :=
  [.recvmsg 0 true, .createSsl 1, .acceptShared 1 calls, .closeSession 1 false]

theorem connections_conserved_handshake :
    ∃ w, ngxEventProcessInit 3 oneListener none false true = some w ∧
      Along Worker.step Worker.PutsBack w (handshakeRun allCalls) ∧
        (run Worker.step w (handshakeRun allCalls)).Conserved := by
  refine ⟨_, rfl, ?_⟩
  have hinit : ngxEventProcessInit 3 oneListener none false true = some _ := rfl
  have hres := connections_conserved hinit (show Along Worker.step Worker.CallsSucceed _ (handshakeRun allCalls) from
    ⟨trivial, trivial, fun _ _ _ _ => ⟨rfl, rfl, rfl, rfl, fun h => by cases h⟩, trivial, trivial⟩)
  exact ⟨hres.1, hres.2.1⟩

/-- A `bind` that fails costs the worker a slot, and an `ngx_add_conn` that fails for an upstream closes the standard
input. -/
theorem connections_leaked :
    (∃ w, ngxEventProcessInit 2 oneListener none false true = some w ∧
      ¬ (run Worker.step w (handshakeRun { allCalls with bind := false })).Conserved) ∧
    ∃ w, ngxEventProcessInit 2 oneListener none true false = some w ∧
      ¬ (run Worker.step w [.connectPeer true true,
        .sslInitUpstream 1 { allCalls with addConn := false }]).Conserved := by
  constructor
  · refine ⟨_, rfl, ?_⟩
    rintro ⟨-, hcount, -⟩
    revert hcount
    decide
  · refine ⟨_, rfl, ?_⟩
    rintro ⟨-, -, hclosed⟩
    revert hclosed
    decide

end NginxDtls
