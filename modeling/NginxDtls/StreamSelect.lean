import NginxDtls.StreamListen

/-! The configuration a connection gets. The sort brings the addresses with a bind of their own to the front and the
wildcard to the end, so that the loop of `ngx_stream_optimize_servers` gives a socket to each of the first, and the
wildcard one to all that are left. -/

namespace NginxDtls.Sockets

open Checked

variable {Ctx : Type}

/-! ### The layout of the sockets -/

/-- An address with its configuration. -/
abbrev Server (Ctx : Type) : Type := Sockaddr × AddrConf Ctx

def StreamListen.server (opt : StreamListen Ctx) : Server Ctx := (opt.sockaddr, opt.addrConf)

/-- An array holds the addresses of servers in their order. -/
def InAddrs.Holds : InAddrs Ctx → List (Server Ctx) → Prop
  | .inet addrs, servers => List.Forall₂ (fun p e => sinAddr e.1 = some p.1 ∧ p.2 = e.2) addrs servers
  | .inet6 addrs, servers => List.Forall₂ (fun p e => sin6Addr e.1 = some p.1 ∧ p.2 = e.2) addrs servers

/-- The configurations in an array. -/
def InAddrs.confs : InAddrs Ctx → List (AddrConf Ctx)
  | .inet addrs => addrs.map Prod.snd
  | .inet6 addrs => addrs.map Prod.snd

/-- A socket that is bound to the last one of its servers. -/
structure SocketOf (before : List (Server Ctx)) (last : Server Ctx) (s : Listening Ctx) : Prop where
  sockaddr : s.sockaddr = last.1
  wildcard : s.wildcard = ngxInetWildcard last.1
  naddrs : s.servers.naddrs = before.length + 1
  holds : s.servers.addrs.Holds (before ++ [last])
  inet6 : (∃ addrs, s.servers.addrs = .inet6 addrs) ↔ saFamily last.1 = .inet6

/-- Servers are laid out over sockets: some have their own, and all that are left share that of the wildcard. -/
inductive Laid : List (Server Ctx) → List (Listening Ctx) → Prop
  | nil : Laid [] []
  | wildcard {before : List (Server Ctx)} {last : Server Ctx} {s : Listening Ctx} (h : SocketOf before last s)
      (hwildcard : ngxInetWildcard last.1 = true) : Laid (before ++ [last]) [s]
  | bound {e : Server Ctx} {s : Listening Ctx} {servers : List (Server Ctx)} {sockets : List (Listening Ctx)}
      (h : SocketOf [] e s) (hwildcard : ngxInetWildcard e.1 = false) (hlaid : Laid servers sockets) :
      Laid (e :: servers) (s :: sockets)

/-! ### The loop -/

theorem addAddrs_eq {α : Type} {address : Sockaddr → Option α} {addr : List (StreamListen Ctx)} {n : ℕ}
    (hlen : n ≤ addr.length) (h : ∀ opt ∈ addr, ∃ a, address opt.sockaddr = some a) :
    ∃ addrs, addAddrs address n addr = pure addrs ∧
      List.Forall₂ (fun p e => address e.1 = some p.1 ∧ p.2 = e.2) addrs ((addr.take n).map StreamListen.server) := by
  induction n generalizing addr with
  | zero => exact ⟨[], rfl, by simp⟩
  | succ n ih =>
      match addr, hlen, h with
      | opt :: addr, hlen, h =>
        obtain ⟨a, ha⟩ := h opt List.mem_cons_self
        obtain ⟨addrs, hadd, hall⟩ := ih (Nat.le_of_succ_le_succ hlen) fun opt' h' => h opt' (List.mem_cons_of_mem _ h')
        refine ⟨(a, opt.addrConf) :: addrs, ?_, ?_⟩
        · rw [addAddrs, ha]
          simp only [hadd, pure_bind]
        · exact .cons ⟨ha, rfl⟩ hall

theorem sin6Addr_of_inet6 {sa : Sockaddr} (h : saFamily sa = .inet6) : ∃ a, sin6Addr sa = some a := by
  cases sa with
  | inet port addr => cases h
  | inet6 port flowinfo addr scopeId => exact ⟨addr, rfl⟩
  | unix path => cases h

theorem sinAddr_of_ne {sa : Sockaddr} (h : saFamily sa ≠ .inet6) : ∃ a, sinAddr sa = some a := by
  cases sa with
  | inet port addr => exact ⟨addr, rfl⟩
  | inet6 port flowinfo addr scopeId => exact absurd rfl h
  | unix path => exact ⟨_, rfl⟩

theorem addPortAddrs_eq {sa : Sockaddr} {addr : List (StreamListen Ctx)} {n : ℕ} (hlen : n ≤ addr.length)
    (h : ∀ opt ∈ addr, saFamily opt.sockaddr = saFamily sa) :
    ∃ addrs, addPortAddrs sa n addr = pure addrs ∧ addrs.Holds ((addr.take n).map StreamListen.server) ∧
      ((∃ l, addrs = .inet6 l) ↔ saFamily sa = .inet6) := by
  by_cases hf : saFamily sa = .inet6
  · obtain ⟨addrs, hadd, hall⟩ := addAddrs_eq hlen fun opt ho => sin6Addr_of_inet6 ((h opt ho).trans hf)
    refine ⟨.inet6 addrs, ?_, hall, by simp [hf]⟩
    rw [addPortAddrs, hf]
    simp only [ngxStreamAddAddrs6, hadd, pure_bind]
  · obtain ⟨addrs, hadd, hall⟩ := addAddrs_eq hlen fun opt ho => sinAddr_of_ne fun h' => hf ((h opt ho).symm.trans h')
    refine ⟨.inet addrs, ?_, hall, by simp [hf]⟩
    unfold addPortAddrs
    split
    · next h' => exact absurd h' hf
    · simp only [ngxStreamAddAddrs, hadd, pure_bind]

/-- A listen address of a port: what `ngx_stream_core_listen` and `ngx_stream_add_ports` make sure of. -/
structure Uniform (family : SaFamily) (opt : StreamListen Ctx) : Prop where
  family : saFamily opt.sockaddr = family
  wildcard : opt.wildcard = ngxInetWildcard opt.sockaddr

/-- There was no memory for a socket. -/
def NoMemory (memory : Sockaddr → Bool) (addr : List (StreamListen Ctx)) : Prop :=
  ∃ opt ∈ addr, memory opt.sockaddr = false

theorem createListening_eq {family : SaFamily} (memory : Sockaddr → Bool) {before rest : List (StreamListen Ctx)}
    {opt : StreamListen Ctx} (h : ∀ opt' ∈ before ++ opt :: rest, Uniform family opt') :
    (∃ s, createListening memory (before ++ opt :: rest) before.length opt = pure s ∧
      SocketOf (before.map StreamListen.server) opt.server s) ∨
    createListening memory (before ++ opt :: rest) before.length opt = throw (.returned ()) ∧
      memory opt.sockaddr = false := by
  have hopt : Uniform family opt := h opt (by simp)
  by_cases hm : memory opt.sockaddr = false
  · refine .inr ⟨?_, hm⟩
    unfold createListening
    rw [if_pos (by simpa using hm)]
  have hlen : before.length + 1 ≤ (before ++ opt :: rest).length := by simp
  obtain ⟨addrs, hadd, hholds, hf⟩ := addPortAddrs_eq hlen fun opt' h' => (h opt' h').family.trans hopt.family.symm
  have htake : (before ++ opt :: rest).take (before.length + 1) = before ++ [opt] := by
    rw [List.take_append]
    simp
  rw [htake, List.map_append] at hholds
  refine .inl ?_
  obtain ⟨first, tail, heq⟩ : ∃ first tail, before ++ opt :: rest = first :: tail := by
    cases before with
    | nil => exact ⟨opt, rest, rfl⟩
    | cons first before => exact ⟨first, before ++ opt :: rest, rfl⟩
  refine ⟨{ sockaddr := opt.sockaddr, wildcard := opt.wildcard, options := opt.options, errorLog := first.ctx,
            servers := { addrs, naddrs := before.length + 1 } }, ?_, ?_⟩
  · unfold createListening
    rw [if_neg (by simpa using hm), heq]
    simp only [← heq, hadd, pure_bind]
  · exact { sockaddr := rfl, wildcard := hopt.wildcard, naddrs := by simp, holds := hholds, inet6 := hf }

/-- The sockets of a port are laid out, or there was no memory for one. -/
def LaysOut (memory : Sockaddr → Bool) (addr : List (StreamListen Ctx)) (m : Checked Unit (List (Listening Ctx))) : Prop :=
  (∃ sockets, m = pure sockets ∧ Laid (addr.map StreamListen.server) sockets) ∨
    m = throw (.returned ()) ∧ NoMemory memory addr

variable {family : SaFamily} {bindWildcard : Bool} (memory : Sockaddr → Bool)

/-- An address with a socket of its own. -/
theorem optimizeLoop_bound {opt : StreamListen Ctx} {rest : List (StreamListen Ctx)}
    (h : ∀ opt' ∈ opt :: rest, Uniform family opt') (hbind : (bindWildcard && !opt.bind) = false)
    (hwildcard : opt.wildcard = false) (hrest : LaysOut memory rest (optimizeLoop bindWildcard memory rest.length rest 0)) :
    LaysOut memory (opt :: rest) (optimizeLoop bindWildcard memory (rest.length + 1) (opt :: rest) 0) := by
  have hstep : optimizeLoop bindWildcard memory (rest.length + 1) (opt :: rest) 0 =
      createListening memory (opt :: rest) 0 opt >>= fun ls =>
        optimizeLoop bindWildcard memory rest.length rest 0 >>= fun sockets => pure (ls :: sockets) := by
    simp only [optimizeLoop, List.getElem?_cons_zero, hbind, Bool.false_eq_true, if_false, List.tail_cons]
  rw [hstep]
  obtain ⟨s, hcreate, hs⟩ | ⟨hcreate, hm⟩ := @createListening_eq _ family memory [] rest opt h
  · rw [List.nil_append, List.length_nil] at hcreate
    obtain ⟨sockets, hloop, hlaid⟩ | ⟨hloop, opt', ho, hm⟩ := hrest
    · refine .inl ⟨s :: sockets, ?_, ?_⟩
      · rw [hcreate, pure_bind, hloop, pure_bind]
      · exact .bound hs ((h opt List.mem_cons_self).wildcard.symm.trans hwildcard) hlaid
    · refine .inr ⟨?_, opt', List.mem_cons_of_mem opt ho, hm⟩
      rw [hcreate, pure_bind, hloop]
      rfl
  · refine .inr ⟨?_, opt, List.mem_cons_self, hm⟩
    rw [List.nil_append, List.length_nil] at hcreate
    rw [hcreate]
    rfl

/-- The index goes past all addresses without a bind of their own. -/
theorem optimizeLoop_skip {before rest : List (StreamListen Ctx)} (hbind : ∀ opt ∈ before, opt.bind = false) {n i : ℕ}
    (hi : n + i = before.length) :
    optimizeLoop true memory (n + 1) (before ++ rest) i = optimizeLoop true memory 1 (before ++ rest) before.length := by
  induction n generalizing i with
  | zero =>
      have : i = before.length := by omega
      rw [this]
  | succ n ih =>
      have hlt : i < before.length := by omega
      have hget : (before ++ rest)[i]? = some before[i] := by
        rw [List.getElem?_append_left hlt, List.getElem?_eq_getElem hlt]
      rw [optimizeLoop, hget]
      simp only [hbind _ (List.getElem_mem hlt), Bool.not_false, Bool.and_self, if_true]
      exact ih (by omega)

/-- The socket of the wildcard gets all addresses that are left. -/
theorem optimizeLoop_shared {before : List (StreamListen Ctx)} {last : StreamListen Ctx}
    (h : ∀ opt ∈ before ++ [last], Uniform family opt) (hbefore : ∀ opt ∈ before, opt.bind = false)
    (hbind : last.bind = true) (hwildcard : last.wildcard = true) :
    LaysOut memory (before ++ [last]) (optimizeLoop true memory (before.length + 1) (before ++ [last]) 0) := by
  rw [optimizeLoop_skip memory hbefore (Nat.add_zero _)]
  have hstep : optimizeLoop true memory 1 (before ++ [last]) before.length =
      createListening memory (before ++ [last]) before.length last >>= fun ls => pure [ls] := by
    have hget : (before ++ [last])[before.length]? = some last := by simp
    rw [optimizeLoop, hget]
    simp only [hbind, optimizeLoop, Bool.not_true, Bool.and_false, Bool.false_eq_true, if_false, pure_bind]
  rw [hstep]
  obtain ⟨s, hcreate, hs⟩ | ⟨hcreate, hm⟩ := createListening_eq memory h
  · refine .inl ⟨[s], ?_, ?_⟩
    · rw [hcreate, pure_bind]
    · rw [List.map_append]
      exact .wildcard hs ((h last (by simp)).wildcard.symm.trans hwildcard)
  · refine .inr ⟨?_, last, by simp, hm⟩
    rw [hcreate]
    rfl

/-- The place of an address in the order of `ngx_stream_cmp_conf_addrs` -/
def StreamListen.rank (opt : StreamListen Ctx) : ℕ := if opt.wildcard then 2 else if opt.bind then 0 else 1

/-- With a wildcard at the end. -/
theorem optimizeLoop_wildcard {addr : List (StreamListen Ctx)} {last : StreamListen Ctx}
    (h : ∀ opt ∈ addr ++ [last], Uniform family opt) (hsorted : addr.Pairwise fun a b => a.rank ≤ b.rank)
    (haddr : ∀ opt ∈ addr, opt.wildcard = false) (hbind : last.bind = true) (hwildcard : last.wildcard = true) :
    LaysOut memory (addr ++ [last]) (optimizeLoop true memory (addr.length + 1) (addr ++ [last]) 0) := by
  induction addr with
  | nil => exact optimizeLoop_shared memory h (by simp) hbind hwildcard
  | cons opt addr ih =>
      obtain ⟨hle, hsorted⟩ := List.pairwise_cons.1 hsorted
      cases hopt : opt.bind with
      | true =>
          have hrest := ih (fun opt' h' => h opt' (List.mem_cons_of_mem opt h')) hsorted
            fun opt' h' => haddr opt' (List.mem_cons_of_mem opt h')
          have hlen : (opt :: addr).length + 1 = (addr ++ [last]).length + 1 := by simp
          rw [List.cons_append, hlen]
          refine optimizeLoop_bound memory h (by simp [hopt]) (haddr opt List.mem_cons_self) ?_
          simpa using hrest
      | false =>
          -- none of the addresses behind it has a bind of its own
          refine optimizeLoop_shared memory h (fun opt' h' => ?_) hbind hwildcard
          obtain rfl | h' := List.mem_cons.1 h'
          · exact hopt
          · have := hle opt' h'
            have hw := haddr opt' (List.mem_cons_of_mem opt h')
            have hw' := haddr opt List.mem_cons_self
            cases hb : opt'.bind with
            | false => rfl
            | true => simp [StreamListen.rank, hw, hw', hopt, hb] at this

/-- Without a wildcard. -/
theorem optimizeLoop_own {addr : List (StreamListen Ctx)} (h : ∀ opt ∈ addr, Uniform family opt)
    (haddr : ∀ opt ∈ addr, opt.wildcard = false) :
    LaysOut memory addr (optimizeLoop false memory addr.length addr 0) := by
  induction addr with
  | nil => exact .inl ⟨[], rfl, .nil⟩
  | cons opt addr ih =>
      refine optimizeLoop_bound memory h (Bool.false_and _) (haddr opt List.mem_cons_self) ?_
      exact ih (fun opt' h' => h opt' (List.mem_cons_of_mem opt h'))
        fun opt' h' => haddr opt' (List.mem_cons_of_mem opt h')

/-! ### All addresses of a port -/

/-- The addresses of a port: `ngx_stream_add_ports` collects those of one family, and `ngx_stream_core_listen` sets the
flag of the wildcard and refuses an address that is there already. -/
structure ConfPort (addrs : List (StreamListen Ctx)) : Prop where
  nonempty : addrs ≠ []
  family : ∀ opt ∈ addrs, ∀ opt' ∈ addrs, saFamily opt.sockaddr = saFamily opt'.sockaddr
  wildcard : ∀ opt ∈ addrs, opt.wildcard = ngxInetWildcard opt.sockaddr
  distinct : addrs.Pairwise fun a b => ¬a.sockaddr.SameAddr b.sockaddr

theorem ConfPort.uniform {addrs : List (StreamListen Ctx)} (h : ConfPort addrs) :
    ∃ family, ∀ opt ∈ addrs, Uniform family opt := by
  obtain ⟨first, hfirst⟩ := List.exists_mem_of_ne_nil addrs h.nonempty
  exact ⟨saFamily first.sockaddr, fun opt ho => ⟨h.family opt ho first hfirst, h.wildcard opt ho⟩⟩

theorem sameAddr_comm {a b : Sockaddr} : a.SameAddr b ↔ b.SameAddr a := by
  cases a <;> cases b <;> simp [Sockaddr.SameAddr, eq_comm]

theorem ConfPort.perm {addrs addrs' : List (StreamListen Ctx)} (h : ConfPort addrs) (hperm : addrs'.Perm addrs) :
    ConfPort addrs' where
  nonempty hnil := h.nonempty (by simpa [hnil] using hperm.symm)
  family opt ho opt' ho' := h.family opt (hperm.mem_iff.1 ho) opt' (hperm.mem_iff.1 ho')
  wildcard opt ho := h.wildcard opt (hperm.mem_iff.1 ho)
  distinct := hperm.symm.pairwise h.distinct fun {_ _} hn h' => hn (sameAddr_comm.1 h')

/-- Two wildcards of a family are the same address. -/
theorem sameAddr_of_wildcard {a b : Sockaddr} (hf : saFamily a = saFamily b) (ha : ngxInetWildcard a = true)
    (hb : ngxInetWildcard b = true) : a.SameAddr b := by
  cases a with
  | inet port addr =>
      cases b with
      | inet port' addr' => exact (of_decide_eq_true ha).trans (of_decide_eq_true hb).symm
      | inet6 port' flowinfo' addr' scopeId' => cases hf
      | unix path' => cases hf
  | inet6 port flowinfo addr scopeId =>
      cases b with
      | inet port' addr' => cases hf
      | inet6 port' flowinfo' addr' scopeId' => exact (of_decide_eq_true ha).trans (of_decide_eq_true hb).symm
      | unix path' => cases hf
  | unix path => cases ha

theorem ngxStreamCmpConfAddrs_of_lt (first second : StreamListen Ctx) (h : second.rank < first.rank) :
    ngxStreamCmpConfAddrs first second = true := by
  unfold StreamListen.rank at h
  unfold ngxStreamCmpConfAddrs
  grind

theorem rank_le_of_cmp (first second : StreamListen Ctx) (h : ngxStreamCmpConfAddrs first second = true) :
    second.rank ≤ first.rank := by
  unfold ngxStreamCmpConfAddrs at h
  unfold StreamListen.rank
  grind

/-- The wildcard at the end of the sorted addresses is bound. -/
theorem laysOut_wildcard {init : List (StreamListen Ctx)} {last : StreamListen Ctx} (h : ConfPort (init ++ [last]))
    (hsorted : init.Pairwise fun a b => a.rank ≤ b.rank) (hlast : last.wildcard = true) :
    LaysOut memory (init ++ [last])
      (optimizeLoop true memory (init.length + 1) (init ++ [{ last with bind := true }]) 0) := by
  obtain ⟨family, huniform⟩ := h.uniform
  have hdistinct := (List.pairwise_append.1 h.distinct).2.2
  have hw : ngxInetWildcard last.sockaddr = true := (h.wildcard last (by simp)).symm.trans hlast
  have hnone : ∀ opt ∈ init, opt.wildcard = false := by
    intro opt ho
    by_contra hopt
    have hopt' : ngxInetWildcard opt.sockaddr = true := by
      rw [← h.wildcard opt (by simp [ho])]
      simpa using hopt
    exact hdistinct opt ho last (by simp)
      (sameAddr_of_wildcard (h.family opt (by simp [ho]) last (by simp)) hopt' hw)
  have huniform' : ∀ opt ∈ init ++ [{ last with bind := true }], Uniform family opt := by
    intro opt ho
    obtain ho | ho := List.mem_append.1 ho
    · exact huniform opt (by simp [ho])
    · obtain rfl := List.mem_singleton.1 ho
      exact ⟨(huniform last (by simp)).family, (huniform last (by simp)).wildcard⟩
  obtain ⟨sockets, hloop, hlaid⟩ | ⟨hloop, opt, ho, hm⟩ :=
    optimizeLoop_wildcard memory huniform' hsorted hnone rfl hlast
  · refine .inl ⟨sockets, hloop, ?_⟩
    simpa [StreamListen.server, StreamListen.addrConf] using hlaid
  · refine .inr ⟨hloop, ?_⟩
    obtain ho | ho := List.mem_append.1 ho
    · exact ⟨opt, by simp [ho], hm⟩
    · obtain rfl := List.mem_singleton.1 ho
      exact ⟨last, by simp, hm⟩

/-- Without a wildcard at the end there is none. -/
theorem not_wildcard_of_last {init : List (StreamListen Ctx)} {last : StreamListen Ctx}
    (hle : ∀ opt ∈ init, opt.rank ≤ last.rank) (hlast : last.wildcard = false) :
    ∀ opt ∈ init ++ [last], opt.wildcard = false := by
  intro opt ho
  obtain ho | ho := List.mem_append.1 ho
  · have := hle opt ho
    by_contra hopt
    unfold StreamListen.rank at this
    grind
  · obtain rfl := List.mem_singleton.1 ho
    exact hlast

/-- The sort, and what the loop makes of its result. -/
theorem ngxStreamOptimizeServers_laysOut {addrs : List (StreamListen Ctx)} (h : ConfPort addrs) :
    ∃ addr, addr.Perm addrs ∧ LaysOut memory addr (ngxStreamOptimizeServers true memory addrs) := by
  have hperm := InsertionSort.sort_perm ngxStreamCmpConfAddrs addrs
  have hsorted := InsertionSort.sort_sorted ngxStreamCmpConfAddrs_of_lt rank_le_of_cmp addrs
  refine ⟨_, hperm, ?_⟩
  unfold ngxStreamOptimizeServers ngxSort
  rw [if_pos rfl]
  generalize InsertionSort.sort ngxStreamCmpConfAddrs addrs = addr at hperm hsorted ⊢
  have hport := h.perm hperm
  obtain ⟨family, huniform⟩ := hport.uniform
  obtain rfl | ⟨init, last, rfl⟩ := List.eq_nil_or_concat addr
  · exact absurd rfl hport.nonempty
  rw [List.concat_eq_append] at *
  obtain ⟨hinit, -, hle⟩ := List.pairwise_append.1 hsorted
  simp only [List.getLast?_concat, List.dropLast_concat, List.length_append, List.length_singleton]
  split
  · next hlast => exact laysOut_wildcard memory hport hinit hlast
  · next hlast =>
    have hnone := not_wildcard_of_last (fun opt ho => hle opt ho last (by simp)) (by simpa using hlast)
    simpa using optimizeLoop_own memory huniform hnone

/-! ### The search -/

/-- The socket a connection to an address is accepted on: the one bound to it, or else the wildcard. -/
structure AcceptedOn (sockets : List (Listening Ctx)) (sa : Sockaddr) (s : Listening Ctx) : Prop where
  mem : s ∈ sockets
  family : saFamily s.sockaddr = saFamily sa
  bound : s.sockaddr.SameAddr sa ∨ s.wildcard = true ∧ ∀ s' ∈ sockets, ¬s'.sockaddr.SameAddr sa

/-- The configuration of the listen address that is the same, or else of the wildcard. -/
def Selects (servers : List (Server Ctx)) (sa : Sockaddr) (conf : AddrConf Ctx) : Prop :=
  (∃ e ∈ servers, e.1.SameAddr sa ∧ conf = e.2) ∨
    (∀ e ∈ servers, ¬e.1.SameAddr sa) ∧ ∃ e ∈ servers, ngxInetWildcard e.1 = true ∧ conf = e.2

/-- A connection to an address: its local address is that of the socket until `getsockname` is asked, or was received
with it. -/
structure ConnectedTo (sa : Sockaddr) (c : Connection Ctx) : Prop where
  localSockaddr : c.localSockaddr = c.listening.sockaddr ∨ c.localSockaddr = sa
  getsockname : c.getsockname = none ∨ c.getsockname = some sa

/-- The search ends at the first server with the address, or at the last one. -/
theorem searchAddrs_eq {α : Type} [DecidableEq α] {address : Sockaddr → Option α} (a : α)
    {before : List (Server Ctx)} {last : Server Ctx} {addrs : List (α × AddrConf Ctx)}
    (h : List.Forall₂ (fun p e => address e.1 = some p.1 ∧ p.2 = e.2) addrs (before ++ [last])) :
    ∃ e, searchAddrs a before.length addrs = pure e.2 ∧
      (e ∈ before ∧ address e.1 = some a ∨ e = last ∧ ∀ e' ∈ before, address e'.1 ≠ some a) := by
  induction before generalizing addrs with
  | nil =>
      cases h with
      | cons hp hall =>
          refine ⟨last, ?_, .inr ⟨rfl, by simp⟩⟩
          rw [List.length_nil, searchAddrs, hp.2]
  | cons e before ih =>
      cases h with
      | @cons p _ addrs _ hp hall =>
          rw [List.length_cons, searchAddrs]
          split
          · next heq =>
            exact ⟨e, by rw [hp.2], .inl ⟨List.mem_cons_self, by rw [hp.1, heq]⟩⟩
          · next hne =>
            obtain ⟨e', hsearch, he'⟩ := ih hall
            refine ⟨e', hsearch, ?_⟩
            obtain ⟨hmem, ha⟩ | ⟨hlast, hnone⟩ := he'
            · exact .inl ⟨List.mem_cons_of_mem e hmem, ha⟩
            · refine .inr ⟨hlast, fun e'' h'' => ?_⟩
              obtain rfl | h'' := List.mem_cons.1 h''
              · rw [hp.1]
                simpa using hne
              · exact hnone e'' h''

theorem sinAddr_eq_iff {a b : Sockaddr} (ha : saFamily a = .inet) (hb : saFamily b = .inet) :
    sinAddr a = sinAddr b ↔ a.SameAddr b := by
  cases a with
  | inet port addr =>
      cases b with
      | inet port' addr' => exact Option.some_inj
      | inet6 port' flowinfo' addr' scopeId' => cases hb
      | unix path' => cases hb
  | inet6 port flowinfo addr scopeId => cases ha
  | unix path => cases ha

theorem sin6Addr_eq_iff {a b : Sockaddr} (ha : saFamily a = .inet6) (hb : saFamily b = .inet6) :
    sin6Addr a = sin6Addr b ↔ a.SameAddr b := by
  cases a with
  | inet port addr => cases ha
  | inet6 port flowinfo addr scopeId =>
      cases b with
      | inet port' addr' => cases hb
      | inet6 port' flowinfo' addr' scopeId' => exact Option.some_inj
      | unix path' => cases hb
  | unix path => cases ha

theorem family_of_wildcard {sa : Sockaddr} (h : ngxInetWildcard sa = true) :
    saFamily sa = .inet ∨ saFamily sa = .inet6 := by
  cases sa with
  | inet port addr => exact .inl rfl
  | inet6 port flowinfo addr scopeId => exact .inr rfl
  | unix path => cases h

theorem localAddrKnown_wildcard {sa : Sockaddr} (h : ngxInetWildcard sa = true) : localAddrKnown sa = false := by
  cases sa with
  | inet port addr =>
      rw [ngxInetWildcard, decide_eq_true_eq] at h
      rw [localAddrKnown, h]
      rfl
  | inet6 port flowinfo addr scopeId =>
      rw [ngxInetWildcard, decide_eq_true_eq] at h
      rw [localAddrKnown, h]
      decide
  | unix path => cases h

/-- Which server the search of a socket finds. -/
def Found (before : List (Server Ctx)) (last : Server Ctx) (sa : Sockaddr) (e : Server Ctx) : Prop :=
  e ∈ before ∧ e.1.SameAddr sa ∨ e = last ∧ ∀ e' ∈ before, ¬e'.1.SameAddr sa

theorem searchAddrs_found {α : Type} [DecidableEq α] {address : Sockaddr → Option α} {a : α} {sa : Sockaddr}
    {before : List (Server Ctx)} {last : Server Ctx} {addrs : List (α × AddrConf Ctx)}
    (h : List.Forall₂ (fun p e => address e.1 = some p.1 ∧ p.2 = e.2) addrs (before ++ [last]))
    (hsame : ∀ e ∈ before, address e.1 = some a ↔ e.1.SameAddr sa) :
    ∃ e, searchAddrs a before.length addrs = pure e.2 ∧ Found before last sa e := by
  obtain ⟨e, hsearch, ⟨hmem, ha⟩ | ⟨hlast, hnone⟩⟩ := searchAddrs_eq a h
  · exact ⟨e, hsearch, .inl ⟨hmem, (hsame e hmem).1 ha⟩⟩
  · exact ⟨e, hsearch, .inr ⟨hlast, fun e' h' hs => hnone e' h' ((hsame e' h').2 hs)⟩⟩

theorem findAddr_eq {before : List (Server Ctx)} {last : Server Ctx} {s : Listening Ctx} (h : SocketOf before last s)
    (hwildcard : ngxInetWildcard last.1 = true) {sa : Sockaddr} (hsa : saFamily last.1 = saFamily sa)
    (hbefore : ∀ e ∈ before, saFamily e.1 = saFamily sa) :
    ∃ e, findAddr s.servers.naddrs s.servers.addrs sa = pure e.2 ∧ Found before last sa e := by
  have hholds := h.holds
  rw [h.naddrs]
  generalize haddrs : s.servers.addrs = addrs at hholds
  obtain hf | hf := family_of_wildcard hwildcard
  · match addrs with
    | .inet6 addrs => exact absurd (h.inet6.1 ⟨addrs, haddrs⟩) (by rw [hf]; decide)
    | .inet addrs =>
      have hsa' : saFamily sa = .inet := hsa.symm.trans hf
      obtain ⟨a, ha⟩ := @sinAddr_of_ne sa (by rw [hsa']; decide)
      have hsame : ∀ e ∈ before, sinAddr e.1 = some a ↔ e.1.SameAddr sa := fun e he => by
        rw [← ha]
        exact sinAddr_eq_iff ((hbefore e he).trans hsa') hsa'
      obtain ⟨e, hsearch, he⟩ := searchAddrs_found hholds hsame
      refine ⟨e, ?_, he⟩
      rw [findAddr.eq_def, ha]
      simpa using hsearch
  · match addrs with
    | .inet addrs =>
      obtain ⟨addrs', h'⟩ := h.inet6.2 hf
      rw [haddrs] at h'
      cases h'
    | .inet6 addrs =>
      have hsa' : saFamily sa = .inet6 := hsa.symm.trans hf
      obtain ⟨a, ha⟩ := sin6Addr_of_inet6 hsa'
      have hsame : ∀ e ∈ before, sin6Addr e.1 = some a ↔ e.1.SameAddr sa := fun e he => by
        rw [← ha]
        exact sin6Addr_eq_iff ((hbefore e he).trans hsa') hsa'
      obtain ⟨e, hsearch, he⟩ := searchAddrs_found hholds hsame
      refine ⟨e, ?_, he⟩
      rw [findAddr.eq_def, ha]
      simpa using hsearch

theorem firstAddr_eq {e : Server Ctx} {s : Listening Ctx} (h : SocketOf [] e s) {sa : Sockaddr}
    (hsa : saFamily e.1 = saFamily sa) : firstAddr s.servers.addrs sa = pure e.2 := by
  have hholds := h.holds
  have hinet6 := h.inet6
  rw [hsa] at hinet6
  generalize s.servers.addrs = addrs at hholds hinet6
  match addrs with
  | .inet addrs =>
    cases hholds with
    | @cons p _ _ _ hp hall =>
        unfold firstAddr
        cases hf : saFamily sa with
        | inet => simp [hp.2]
        | inet6 => simp [hf] at hinet6
        | unix => simp [hp.2]
  | .inet6 addrs =>
    cases hholds with
    | @cons p _ _ _ hp hall =>
        have hf : saFamily sa = .inet6 := hinet6.1 ⟨_, rfl⟩
        unfold firstAddr
        rw [hf]
        simp [hp.2]

theorem ConnectedTo.saFamily_eq {sa : Sockaddr} {c : Connection Ctx} (h : ConnectedTo sa c)
    (hf : saFamily c.listening.sockaddr = saFamily sa) : saFamily c.localSockaddr = saFamily sa := by
  obtain h | h := h.localSockaddr
  · rw [h, hf]
  · rw [h]

/-- The only server of a socket. -/
theorem ngxStreamInitConnection_bound {e : Server Ctx} {c : Connection Ctx} (h : SocketOf [] e c.listening)
    {sa : Sockaddr} (hsa : saFamily e.1 = saFamily sa) (hc : ConnectedTo sa c) :
    ngxStreamInitConnection c = pure e.2 := by
  have hone : ¬c.listening.servers.naddrs > 1 := by
    rw [h.naddrs]
    simp
  unfold ngxStreamInitConnection
  simp only [if_neg hone]
  exact firstAddr_eq h (hsa.trans (hc.saFamily_eq (by rw [h.sockaddr, hsa])).symm)

/-- One of the servers that the socket of the wildcard has. -/
theorem ngxStreamInitConnection_wildcard {before : List (Server Ctx)} {last : Server Ctx} {c : Connection Ctx}
    (h : SocketOf before last c.listening) (hwildcard : ngxInetWildcard last.1 = true) {sa : Sockaddr}
    (hsa : saFamily last.1 = saFamily sa) (hbefore : ∀ e ∈ before, saFamily e.1 = saFamily sa)
    (hc : ConnectedTo sa c) :
    (∃ e, ngxStreamInitConnection c = pure e.2 ∧ Found before last sa e) ∨
      ngxStreamInitConnection c = throw (.returned ()) ∧ c.getsockname = none := by
  match before, h, hbefore with
  | [], h, _ => exact .inl ⟨last, ngxStreamInitConnection_bound h hsa hc, .inr ⟨rfl, by simp⟩⟩
  | e :: before, h, hbefore =>
    have hmany : c.listening.servers.naddrs > 1 := by
      rw [h.naddrs]
      simp
    have hlocal : ngxConnectionLocalSockaddr c = some sa ∨
        ngxConnectionLocalSockaddr c = none ∧ c.getsockname = none := by
      unfold ngxConnectionLocalSockaddr
      split
      · next hknown =>
        obtain hl | hl := hc.localSockaddr
        · rw [hl, h.sockaddr, localAddrKnown_wildcard hwildcard, Bool.and_false] at hknown
          cases hknown
        · exact .inl (by rw [hl])
      · obtain hg | hg := hc.getsockname
        · exact .inr ⟨hg, hg⟩
        · exact .inl hg
    unfold ngxStreamInitConnection
    simp only [if_pos hmany]
    obtain hlocal | ⟨hlocal, hg⟩ := hlocal
    · rw [hlocal]
      exact .inl (findAddr_eq h hwildcard hsa hbefore)
    · rw [hlocal]
      exact .inr ⟨rfl, hg⟩

/-! ### The selection -/

theorem confs_of_forall₂ {α : Type} {address : Sockaddr → Option α} {addrs : List (α × AddrConf Ctx)}
    {servers : List (Server Ctx)} (h : List.Forall₂ (fun p e => address e.1 = some p.1 ∧ p.2 = e.2) addrs servers) :
    addrs.map Prod.snd = servers.map Prod.snd := by
  induction h with
  | nil => rfl
  | cons hp hall ih => rw [List.map_cons, List.map_cons, hp.2, ih]

theorem InAddrs.Holds.confs_eq {addrs : InAddrs Ctx} {servers : List (Server Ctx)} (h : addrs.Holds servers) :
    addrs.confs = servers.map Prod.snd := by
  cases addrs with
  | inet addrs => exact confs_of_forall₂ h
  | inet6 addrs => exact confs_of_forall₂ h

namespace Laid

variable {servers : List (Server Ctx)} {sockets : List (Listening Ctx)}

theorem confs (h : Laid servers sockets) :
    (sockets.flatMap fun s => s.servers.addrs.confs) = servers.map Prod.snd := by
  induction h with
  | nil => rfl
  | wildcard hs hwildcard => simp [hs.holds.confs_eq]
  | bound hs hwildcard hlaid ih => simp [hs.holds.confs_eq, ih]

theorem sublist (h : Laid servers sockets) : (sockets.map Listening.sockaddr).Sublist (servers.map Prod.fst) := by
  induction h with
  | nil => exact List.Sublist.slnil
  | wildcard hs hwildcard => simp [hs.sockaddr]
  | bound hs hwildcard hlaid ih =>
      rw [List.map_cons, List.map_cons, hs.sockaddr]
      exact ih.cons_cons _

/-- A socket has a server of its own, or those that have no socket of their own. -/
theorem socket (h : Laid servers sockets) {s : Listening Ctx} (hs : s ∈ sockets) :
    (∃ e ∈ servers, ngxInetWildcard e.1 = false ∧ SocketOf [] e s) ∨
      ∃ before last, ngxInetWildcard last.1 = true ∧ SocketOf before last s ∧ last ∈ servers ∧
        (∀ e ∈ before, e ∈ servers) ∧
        ∀ e ∈ servers, e ∈ before ∨ ∃ s' ∈ sockets, s'.sockaddr = e.1 := by
  induction h with
  | nil => cases hs
  | @wildcard before last s' hsocket hwildcard =>
      obtain rfl := List.mem_singleton.1 hs
      refine .inr ⟨before, last, hwildcard, hsocket, by simp, fun e he => by simp [he], fun e he => ?_⟩
      obtain he | he := List.mem_append.1 he
      · exact .inl he
      · exact .inr ⟨s, hs, by rw [hsocket.sockaddr, List.mem_singleton.1 he]⟩
  | @bound e s' servers sockets hsocket hwildcard hlaid ih =>
      obtain rfl | hs := List.mem_cons.1 hs
      · exact .inl ⟨e, List.mem_cons_self, hwildcard, hsocket⟩
      · obtain ⟨e', he', hrest⟩ | ⟨before, last, hlast, hshared, hmem, hbefore, hleft⟩ := ih hs
        · exact .inl ⟨e', List.mem_cons_of_mem e he', hrest⟩
        · refine .inr ⟨before, last, hlast, hshared, List.mem_cons_of_mem e hmem,
            fun e' h' => List.mem_cons_of_mem e (hbefore e' h'), fun e' h' => ?_⟩
          obtain rfl | h' := List.mem_cons.1 h'
          · exact .inr ⟨s', List.mem_cons_self, hsocket.sockaddr⟩
          · obtain h' | ⟨s'', hs'', heq⟩ := hleft e' h'
            · exact .inl h'
            · exact .inr ⟨s'', List.mem_cons_of_mem s' hs'', heq⟩

/-- A server without a socket of its own has that of the wildcard. -/
theorem server (h : Laid servers sockets) {e : Server Ctx} (he : e ∈ servers) :
    (∃ s ∈ sockets, s.sockaddr = e.1) ∨ ∃ s ∈ sockets, s.wildcard = true := by
  induction h with
  | nil => cases he
  | @wildcard before last s hsocket hwildcard =>
      exact .inr ⟨s, List.mem_cons_self, hsocket.wildcard.trans hwildcard⟩
  | @bound e' s servers sockets hsocket hwildcard hlaid ih =>
      obtain rfl | he := List.mem_cons.1 he
      · exact .inl ⟨s, List.mem_cons_self, hsocket.sockaddr⟩
      · obtain ⟨s', hs', heq⟩ | ⟨s', hs', hw⟩ := ih he
        · exact .inl ⟨s', List.mem_cons_of_mem s hs', heq⟩
        · exact .inr ⟨s', List.mem_cons_of_mem s hs', hw⟩

/-- Every socket is that of one of the servers, with its address. -/
theorem socket_sockaddr (h : Laid servers sockets) {s : Listening Ctx} (hs : s ∈ sockets) :
    (∃ e ∈ servers, s.sockaddr = e.1) ∧ s.wildcard = ngxInetWildcard s.sockaddr := by
  obtain ⟨e, he, -, hsocket⟩ | ⟨before, last, -, hsocket, hmem, -⟩ := h.socket hs
  · exact ⟨⟨e, he, hsocket.sockaddr⟩, by rw [hsocket.wildcard, hsocket.sockaddr]⟩
  · exact ⟨⟨last, hmem, hsocket.sockaddr⟩, by rw [hsocket.wildcard, hsocket.sockaddr]⟩

end Laid

/-- Servers with distinct addresses of one family. -/
structure DistinctServers (servers : List (Server Ctx)) : Prop where
  family : ∀ e ∈ servers, ∀ e' ∈ servers, saFamily e.1 = saFamily e'.1
  distinct : servers.Pairwise fun a b => ¬a.1.SameAddr b.1

theorem sameAddr_refl (sa : Sockaddr) : sa.SameAddr sa := by
  cases sa <;> rfl

theorem SameAddr.trans {a b c : Sockaddr} (h : a.SameAddr b) (h' : b.SameAddr c) : a.SameAddr c := by
  cases a <;> cases b <;> cases c <;> simp_all [Sockaddr.SameAddr]

/-- Sockets with one address are one. -/
theorem Laid.eq_of_sameAddr {servers : List (Server Ctx)} {sockets : List (Listening Ctx)} (h : Laid servers sockets)
    (hd : DistinctServers servers) {s s' : Listening Ctx} (hs : s ∈ sockets) (hs' : s' ∈ sockets)
    (hsame : s.sockaddr.SameAddr s'.sockaddr) : s = s' := by
  have hservers : (servers.map Prod.fst).Pairwise fun a b => ¬a.SameAddr b := List.pairwise_map.2 hd.distinct
  have hsockets : sockets.Pairwise fun a b => ¬a.sockaddr.SameAddr b.sockaddr :=
    List.pairwise_map.1 (hservers.sublist h.sublist)
  by_contra hne
  have : Std.Symm fun a b : Listening Ctx => ¬a.sockaddr.SameAddr b.sockaddr :=
    ⟨fun a b hn h' => hn (sameAddr_comm.1 h')⟩
  exact hsockets.forall hs hs' hne hsame

/-- A connection to the address of a server is accepted on one socket. -/
theorem Laid.reached {servers : List (Server Ctx)} {sockets : List (Listening Ctx)} (h : Laid servers sockets)
    (hd : DistinctServers servers) {e : Server Ctx} (he : e ∈ servers) : ∃! s, AcceptedOn sockets e.1 s := by
  have hfamily : ∀ s ∈ sockets, saFamily s.sockaddr = saFamily e.1 := by
    intro s hs
    obtain ⟨⟨e', he', heq⟩, -⟩ := h.socket_sockaddr hs
    rw [heq]
    exact hd.family e' he' e he
  by_cases hown : ∃ s ∈ sockets, s.sockaddr.SameAddr e.1
  · obtain ⟨s, hs, hsame⟩ := hown
    refine ⟨s, ⟨hs, hfamily s hs, .inl hsame⟩, fun s' h' => ?_⟩
    obtain hsame' | ⟨-, hnone⟩ := h'.bound
    · exact h.eq_of_sameAddr hd h'.mem hs (SameAddr.trans hsame' (sameAddr_comm.1 hsame))
    · exact absurd hsame (hnone s hs)
  · simp only [not_exists, not_and] at hown
    obtain ⟨s, hs, heq⟩ | ⟨s, hs, hw⟩ := h.server he
    · exact absurd (heq ▸ sameAddr_refl e.1) (hown s hs)
    refine ⟨s, ⟨hs, hfamily s hs, .inr ⟨hw, hown⟩⟩, fun s' h' => ?_⟩
    obtain hsame' | ⟨hw', -⟩ := h'.bound
    · exact absurd hsame' (hown s' h'.mem)
    · refine h.eq_of_sameAddr hd h'.mem hs (sameAddr_of_wildcard ?_ ?_ ?_)
      · rw [hfamily s' h'.mem, hfamily s hs]
      · rw [← (h.socket_sockaddr h'.mem).2, hw']
      · rw [← (h.socket_sockaddr hs).2, hw]

/-- A connection gets the configuration of its address. -/
theorem Laid.selected {servers : List (Server Ctx)} {sockets : List (Listening Ctx)} (h : Laid servers sockets)
    (hd : DistinctServers servers) {sa : Sockaddr} {c : Connection Ctx} (ha : AcceptedOn sockets sa c.listening)
    (hc : ConnectedTo sa c) :
    (∃ conf, ngxStreamInitConnection c = pure conf ∧ Selects servers sa conf) ∨
      ngxStreamInitConnection c = throw (.returned ()) ∧ c.getsockname = none := by
  obtain ⟨e, he, hwildcard, hsocket⟩ | ⟨before, last, hwildcard, hsocket, hlast, hbefore, hleft⟩ := h.socket ha.mem
  · have hfamily : saFamily e.1 = saFamily sa := hsocket.sockaddr ▸ ha.family
    refine .inl ⟨e.2, ngxStreamInitConnection_bound hsocket hfamily hc, .inl ⟨e, he, ?_, rfl⟩⟩
    obtain hsame | ⟨hw, -⟩ := ha.bound
    · exact hsocket.sockaddr ▸ hsame
    · rw [hsocket.wildcard, hwildcard] at hw
      cases hw
  · have hfamily : saFamily last.1 = saFamily sa := hsocket.sockaddr ▸ ha.family
    have hfamilies : ∀ e ∈ before, saFamily e.1 = saFamily sa := fun e he =>
      (hd.family e (hbefore e he) last hlast).trans hfamily
    obtain ⟨e, hinit, hfound⟩ | hclosed := ngxStreamInitConnection_wildcard hsocket hwildcard hfamily hfamilies hc
    · refine .inl ⟨e.2, hinit, ?_⟩
      obtain ⟨he, hsame⟩ | ⟨rfl, hnone⟩ := hfound
      · exact .inl ⟨e, hbefore e he, hsame, rfl⟩
      · obtain hsame | ⟨hw, hother⟩ := ha.bound
        · exact .inl ⟨e, hlast, hsocket.sockaddr ▸ hsame, rfl⟩
        · refine .inr ⟨fun e' he' hsame => ?_, e, hlast, hwildcard, rfl⟩
          obtain he' | ⟨s', hs', heq⟩ := hleft e' he'
          · exact hnone e' he' hsame
          · exact hother s' hs' (heq ▸ hsame)
    · exact .inr hclosed

/-- The sockets of a port serve its addresses: every configuration stands in the array of one socket, a connection to
a listen address is accepted on exactly one of them, and a connection gets the configuration of its local address. -/
structure Serves (addrs : List (StreamListen Ctx)) (sockets : List (Listening Ctx)) : Prop where
  confs : (sockets.flatMap fun s => s.servers.addrs.confs).Perm (addrs.map StreamListen.addrConf)
  reached : ∀ opt ∈ addrs, ∃! s, AcceptedOn sockets opt.sockaddr s
  selected : ∀ sa c, AcceptedOn sockets sa c.listening → ConnectedTo sa c →
    (∃ conf, ngxStreamInitConnection c = pure conf ∧ Selects (addrs.map StreamListen.server) sa conf) ∨
      ngxStreamInitConnection c = throw (.returned ()) ∧ c.getsockname = none

theorem ConfPort.distinctServers {addrs : List (StreamListen Ctx)} (h : ConfPort addrs) :
    DistinctServers (addrs.map StreamListen.server) where
  family e he e' he' := by
    obtain ⟨opt, ho, rfl⟩ := List.mem_map.1 he
    obtain ⟨opt', ho', rfl⟩ := List.mem_map.1 he'
    exact h.family opt ho opt' ho'
  distinct := List.pairwise_map.2 h.distinct

theorem Selects.perm {servers servers' : List (Server Ctx)} (h : servers.Perm servers') {sa : Sockaddr}
    {conf : AddrConf Ctx} (hs : Selects servers sa conf) : Selects servers' sa conf := by
  obtain ⟨e, he, hrest⟩ | ⟨hnone, e, he, hrest⟩ := hs
  · exact .inl ⟨e, h.mem_iff.1 he, hrest⟩
  · exact .inr ⟨fun e' he' => hnone e' (h.mem_iff.2 he'), e, h.mem_iff.1 he, hrest⟩

/-- Unless there is no memory for a socket, the addresses of a port are laid out so that every connection gets the
configuration of its local address. -/
theorem server_selection (memory : Sockaddr → Bool) {addrs : List (StreamListen Ctx)} (h : ConfPort addrs) :
    (∃ sockets, ngxStreamOptimizeServers true memory addrs = pure sockets ∧ Serves addrs sockets) ∨
      ngxStreamOptimizeServers true memory addrs = throw (.returned ()) ∧ NoMemory memory addrs := by
  obtain ⟨addr, hperm, ⟨sockets, hopt, hlaid⟩ | ⟨hopt, opt, ho, hm⟩⟩ := ngxStreamOptimizeServers_laysOut memory h
  · have hd := (h.perm hperm).distinctServers
    refine .inl ⟨sockets, hopt, ?_, fun opt ho => ?_, fun sa c ha hc => ?_⟩
    · rw [hlaid.confs, List.map_map]
      exact hperm.map _
    · exact hlaid.reached hd (List.mem_map_of_mem (hperm.mem_iff.2 ho))
    · obtain ⟨conf, hinit, hselects⟩ | hclosed := hlaid.selected hd ha hc
      · exact .inl ⟨conf, hinit, hselects.perm (hperm.map _)⟩
      · exact .inr hclosed
  · exact .inr ⟨hopt, opt, hperm.mem_iff.1 ho, hm⟩

/-- Three addresses: one with a bind of its own, one without, and the wildcard. -/
def listenThree : List (StreamListen ℕ) :=
  let options := ⟨false, 511, -1, -1, true, false, 0, 0, 0, 0, -1⟩
  [{ sockaddr := .inet 443 (Vector.replicate 4 0), addrText := [42], ctx := 0, bind := false, wildcard := true, ssl := false,
     proxyProtocol := false, options },
   { sockaddr := .inet 443 #v[10, 0, 0, 1], addrText := [49], ctx := 1, bind := false, wildcard := false, ssl := true,
     proxyProtocol := false, options },
   { sockaddr := .inet 443 #v[10, 0, 0, 2], addrText := [50], ctx := 2, bind := true, wildcard := false, ssl := false,
     proxyProtocol := false, options }]

theorem server_selection_three :
    (∃ sockets, ngxStreamOptimizeServers true (fun _ => true) listenThree = pure sockets ∧ Serves listenThree sockets) ∨
      ngxStreamOptimizeServers true (fun _ => true) listenThree = throw (.returned ()) ∧
        NoMemory (fun _ => true) listenThree :=
  server_selection (fun _ => true)
    { nonempty := List.cons_ne_nil _ _
      family := by simp [listenThree, saFamily]
      wildcard := by decide
      distinct := by simp [listenThree, Sockaddr.SameAddr, Vector.replicate, Array.replicate] }

end NginxDtls.Sockets
