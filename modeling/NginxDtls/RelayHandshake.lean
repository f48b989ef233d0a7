import NginxDtls.RelayFlow

/-! A session whose listener terminates DTLS. The datagram that opened it has been consumed by the handshake, which
leaves `c->buffer` with `pos` at `last`; `ngx_stream_proxy_init_upstream` still puts that buffer before the records of
the client, and a flush without data is a datagram of its own for `ngx_udp_unix_sendmsg_chain`. From the connection of
the upstream on there is one datagram too many, whatever the sends do. -/

namespace NginxDtls

open Run

/-! ### Kinds of buffers -/

/-- What sending and releasing leave of a buffer as it is. -/
def NgxBuf.kind (b : NgxBuf) : Bool × Bool × Bool := (b.temporary, b.flush, b.lastBuf)

theorem NgxBuf.flush_of_kind {b b' : NgxBuf} (h : b'.kind = b.kind) : b'.flush = b.flush := by
  simp only [kind, Prod.mk.injEq] at h
  exact h.2.1

theorem NgxBuf.special_of_kind {b b' : NgxBuf} (h : b'.kind = b.kind) : ngxBufSpecial b' = ngxBufSpecial b := by
  simp only [kind, Prod.mk.injEq] at h
  rw [ngxBufSpecial, ngxBufSpecial, h.1, h.2.1, h.2.2]

theorem kind_update {bufs : ℕ → NgxBuf} {i : ℕ} {b : NgxBuf} (h : b.kind = (bufs i).kind) (j : ℕ) :
    (Function.update bufs i b j).kind = (bufs j).kind := by
  by_cases hj : j = i
  · rw [hj, Function.update_self, h]
  · rw [Function.update_of_ne hj]

theorem ngxChainUpdateSent_kind (bufs : ℕ → NgxBuf) (chain : List ℕ) (n j : ℕ) :
    ((ngxChainUpdateSent bufs chain n).1 j).kind = (bufs j).kind := by
  induction chain generalizing bufs n with
  | nil => rfl
  | cons i rest ih =>
    rw [ngxChainUpdateSent]
    split
    · exact ih bufs n
    · split
      · rfl
      · split
        · rw [ih]
          exact kind_update (by split <;> rfl) j
        · exact kind_update (by split <;> rfl) j

theorem releaseBusy_kind (bufs : ℕ → NgxBuf) (free busy : List ℕ) (j : ℕ) :
    ((releaseBusy bufs free busy).bufs j).kind = (bufs j).kind := by
  induction busy generalizing bufs free with
  | nil => rfl
  | cons i busy ih =>
    rw [releaseBusy]
    split
    · exact ih bufs free
    · split
      · rfl
      · rw [ih]
        exact @kind_update bufs i { bufs i with pos := (bufs i).start, last := (bufs i).start } rfl j

/-! ### Chains of flushes -/

variable {bufs : ℕ → NgxBuf} {mem : Areas} {chain : List ℕ}

/-- Every buffer of the chain ends a datagram, and only the first one may be a flush without data. -/
structure Flushes (bufs : ℕ → NgxBuf) (chain : List ℕ) : Prop where
  flush : ∀ i ∈ chain, (bufs i).flush = true
  data : ∀ i ∈ chain.tail, ngxBufSpecial (bufs i) = false

namespace Flushes

theorem of_kind {bufs' : ℕ → NgxBuf} (h : Flushes bufs chain) (hkind : ∀ j, (bufs' j).kind = (bufs j).kind) :
    Flushes bufs' chain := by
  refine ⟨fun i hi => ?_, fun i hi => ?_⟩
  · rw [NgxBuf.flush_of_kind (hkind i)]
    exact h.flush i hi
  · rw [NgxBuf.special_of_kind (hkind i)]
    exact h.data i hi

theorem tail {i : ℕ} {rest : List ℕ} (h : Flushes bufs (i :: rest)) : Flushes bufs rest :=
  ⟨fun j hj => h.flush j (List.mem_cons_of_mem _ hj), fun j hj => h.data j (List.mem_of_mem_tail hj)⟩

/-- After the bytes of its first buffer a chain has lost at most that buffer. -/
theorem updateSent {i : ℕ} {rest : List ℕ} (h : Flushes bufs (i :: rest)) :
    (ngxChainUpdateSent bufs (i :: rest) (ngxBufSize (bufs i))).2 = rest ∨
      (ngxChainUpdateSent bufs (i :: rest) (ngxBufSize (bufs i))).2 = i :: rest := by
  have hskip : ∀ bufs', (∀ j, (bufs' j).kind = (bufs j).kind) → (ngxChainUpdateSent bufs' rest 0).2 = rest := by
    intro bufs' hkind
    rw [ngxChainUpdateSent_skip]
    cases rest with
    | nil => rfl
    | cons j rest =>
      have hj : ngxBufSpecial (bufs' j) = false := by
        rw [NgxBuf.special_of_kind (hkind j)]
        exact h.data j List.mem_cons_self
      rw [List.dropWhile_cons, hj]
      rfl
  by_cases hspecial : ngxBufSpecial (bufs i) = true
  · rw [ngxChainUpdateSent_special hspecial, NgxBuf.size_of_special hspecial]
    exact Or.inl (hskip bufs fun _ => rfl)
  · by_cases hsize : ngxBufSize (bufs i) = 0
    · rw [hsize, ngxChainUpdateSent_zero (by simpa using hspecial)]
      exact Or.inr rfl
    · rw [ngxChainUpdateSent_whole (NgxBuf.temporary_of_size hsize) hsize le_rfl, Nat.sub_self]
      exact Or.inl (hskip _ (kind_update rfl))

/-- For every buffer that the chain loses a datagram is sent. -/
theorem sendmsg (h : Flushes bufs chain) (n : ℕ) :
    let res := ngxUdpUnixSendmsgChain mem n bufs chain
    (∀ j, (res.bufs j).kind = (bufs j).kind) ∧ Flushes res.bufs res.chain ∧
      chain.length ≤ res.sent.length + res.chain.length := by
  induction n generalizing bufs chain with
  | zero => exact ⟨fun _ => rfl, h, (Nat.zero_add _).ge⟩
  | succ n ih =>
    cases chain with
    | nil => exact ⟨fun _ => rfl, h, (Nat.zero_add _).ge⟩
    | cons i rest =>
      have hiovec : ngxUdpOutputChainToIovec mem bufs (i :: rest) = some ((bufs i).bytes mem) := by
        rw [ngxUdpOutputChainToIovec, if_pos (by simp [h.flush i List.mem_cons_self])]
      have hkind := ngxChainUpdateSent_kind bufs (i :: rest) (ngxBufSize (bufs i))
      have hleft := h.updateSent
      have hflushes : Flushes (ngxChainUpdateSent bufs (i :: rest) (ngxBufSize (bufs i))).1
          (ngxChainUpdateSent bufs (i :: rest) (ngxBufSize (bufs i))).2 := by
        obtain hleft | hleft := hleft
        · rw [hleft]
          exact h.tail.of_kind hkind
        · rw [hleft]
          exact h.of_kind hkind
      have hlength : rest.length ≤ (ngxChainUpdateSent bufs (i :: rest) (ngxBufSize (bufs i))).2.length := by
        obtain hleft | hleft := hleft <;> simp [hleft]
      obtain ⟨hkind', hflushes', hlength'⟩ := ih hflushes
      simp only [ngxUdpUnixSendmsgChain, hiovec, NgxBuf.length_bytes]
      refine ⟨fun j => (hkind' j).trans (hkind j), hflushes', ?_⟩
      simp only [List.length_cons]
      omega

end Flushes

/-! ### After the connection -/

/-- `recv` returns application records, none of them empty, and the client does not end the session. -/
def RecordsOnly (d : Bool) (_ : Relay) : Recv → Prop
  | .data bs => d = false → bs ≠ []
  | .error => d = true
  | .again => True

instance (d : Bool) (r : Relay) : ∀ recv, Decidable (RecordsOnly d r recv)
  | .data _ => inferInstanceAs (Decidable (_ → _))
  | .error => inferInstanceAs (Decidable (d = true))
  | .again => inferInstanceAs (Decidable True)

variable {conf : RelayConf} {r : Relay}

/-- A record is read in full or up to what is left of the proxy buffer, but never as nothing. -/
theorem record_read (htype : conf.type = .dgram) {f : Flow} (hopen : f.ended = false) {recv : Recv} {bs : List UInt8}
    {eof : Bool} (hrecord : RecordsOnly false r recv) (hreads : Reads conf f recv bs eof) : bs ≠ [] ∧ eof = false := by
  obtain ⟨hlt, ⟨rfl, -, -⟩ | ⟨x, rfl, hbs, heof⟩⟩ := hreads
  · cases hrecord
  · rw [hopen] at hbs heof
    have hdata : bs ≠ [] := by
      rw [hbs]
      simp only [Bool.false_eq_true, if_false, ne_eq, List.take_eq_nil_iff, not_or]
      exact ⟨by omega, hrecord rfl⟩
    exact ⟨hdata, by simp [heof, htype]⟩

/-- There is a datagram more for the upstream than there were records. -/
structure Surplus (r : Relay) : Prop where
  flushes : Flushes r.bufs (r.flows false).queue
  surplus : (r.flows false).received.length < (r.flows false).sent.length + (r.flows false).queue.length
  unended : (r.flows false).ended = false

theorem Flushes.sends (htype : conf.type = .dgram) (h : Flushes bufs chain) {send : Send} {res : Sending}
    (hres : sendChain conf.type mem bufs chain send = some res) :
    (∀ j, (res.bufs j).kind = (bufs j).kind) ∧ Flushes res.bufs res.chain ∧
      chain.length ≤ res.sent.length + res.chain.length := by
  cases send with
  | notReady =>
    cases hres
    exact ⟨fun _ => rfl, h, (Nat.zero_add _).ge⟩
  | accepted n =>
    simp only [sendChain, htype, Option.some.injEq] at hres
    subst hres
    exact h.sendmsg n
  | error => cases hres

/-- A chain with a flush goes to `send_chain` even without data. -/
theorem Flushes.writeFilter (htype : conf.type = .dgram) (h : Flushes r.bufs (r.flows false).queue) (send : Send) :
    ngxStreamWriteFilter conf r false send = none ∨
      ∃ res, sendChain conf.type r.mem r.bufs (r.flows false).queue send = some res ∧
        ngxStreamWriteFilter conf r false send = some (({ r with bufs := res.bufs } : Relay).setFlow false fun f =>
          { f with saved := res.chain, buffered := !res.chain.isEmpty, sent := f.sent ++ res.sent }) := by
  rw [ngxStreamWriteFilter]
  split
  · exact Or.inl rfl
  · split
    · rename_i hsize
      have hnil : (r.flows false).queue = [] := by
        by_contra hne
        obtain ⟨i, rest, hcons⟩ := List.exists_cons_of_ne_nil hne
        have hflush := h.flush i (hcons ▸ List.mem_cons_self)
        exact hsize.2 ⟨htype, by simp [hcons, hflush]⟩
      rw [hnil]
      exact Or.inl rfl
    · split
      · exact Or.inl rfl
      · rename_i res hres
        exact Or.inr ⟨res, hres, if_neg (by simp)⟩

namespace Surplus

theorem settle (hflushes : Flushes r.bufs (r.flows false).saved)
    (hsurplus : (r.flows false).received.length < (r.flows false).sent.length + (r.flows false).saved.length)
    (hended : (r.flows false).ended = false) : Surplus (r.settle false) := by
  have hflow : ∃ busy last, (r.settle false).flows false = { r.flows false with busy, last, out := [] } := by
    unfold Relay.settle
    dsimp only
    split <;> simp [ngxChainUpdateChains]
  have hkind : ∀ j, ((r.settle false).bufs j).kind = (r.bufs j).kind := by
    intro j
    unfold Relay.settle
    dsimp only
    split <;> exact releaseBusy_kind r.bufs r.free _ j
  obtain ⟨busy, last, hflow⟩ := hflow
  have hqueue : ((r.settle false).flows false).queue = (r.flows false).saved := by
    rw [hflow]
    exact List.append_nil _
  refine ⟨?_, ?_, ?_⟩
  · rw [hqueue]
    exact hflushes.of_kind hkind
  · rw [hqueue, hflow]
    exact hsurplus
  · rw [hflow]
    exact hended

theorem write (htype : conf.type = .dgram) (h : Surplus r) (send : Send) :
    Surplus (processWrite conf r false send) := by
  rw [processWrite]
  dsimp only
  split
  · obtain hnone | ⟨res, hres, hsome⟩ := h.flushes.writeFilter htype send
    · rw [hnone]
      exact ⟨h.flushes, h.surplus, h.unended⟩
    · rw [hsome]
      obtain ⟨-, hflushes, hlength⟩ := h.flushes.sends htype hres
      have hsurplus := h.surplus
      refine settle (r := ({ r with bufs := res.bufs } : Relay).setFlow false fun f =>
        { f with saved := res.chain, buffered := !res.chain.isEmpty, sent := f.sent ++ res.sent }) ?_ ?_ ?_
      · rw [Relay.setFlow_flows]
        exact hflushes
      · rw [Relay.setFlow_flows]
        simp only [List.length_append]
        omega
      · rw [Relay.setFlow_flows]
        exact h.unended
  · exact h

theorem arrive (h : Surplus r) (recv : Recv) : Surplus (r.arrive conf false recv) := by
  rw [arrive_eq]
  refine ⟨?_, ?_, ?_⟩
  · rw [Relay.setFlow_flows]
    exact h.flushes
  · rw [Relay.setFlow_flows]
    exact h.surplus
  · rw [Relay.setFlow_flows]
    exact h.unended

/-- The buffer of a record is a flush with data, whatever list it was taken from. -/
theorem receive (h : Surplus r) {bs : List UInt8} (hbs : bs ≠ []) : Surplus (queueReceived r false bs false) := by
  have hflows : (ngxChainGetFreeBuf r).2.flows = r.flows := by
    rw [ngxChainGetFreeBuf]
    split <;> rfl
  have hflow : (queueReceived r false bs false).flows false = { r.flows false with
      out := (r.flows false).out ++ [(ngxChainGetFreeBuf r).1], last := (r.flows false).last + bs.length
      ended := (r.flows false).ended || false, received := (r.flows false).received ++ [bs] } := by
    simp [queueReceived, Relay.setFlow, Relay.setBuf, hflows]
  have hqueue : ((queueReceived r false bs false).flows false).queue =
      (r.flows false).queue ++ [(ngxChainGetFreeBuf r).1] := by
    rw [hflow]
    exact (List.append_assoc _ _ _).symm
  have hbufs : ∀ j, j ≠ (ngxChainGetFreeBuf r).1 → (queueReceived r false bs false).bufs j = r.bufs j := by
    intro j hj
    show Function.update (ngxChainGetFreeBuf r).2.bufs (ngxChainGetFreeBuf r).1 _ j = _
    rw [Function.update_of_ne hj]
    revert hj
    rw [ngxChainGetFreeBuf]
    split
    · exact fun _ => rfl
    · exact fun hj => Function.update_of_ne hj _ _
  have hnew : ((queueReceived r false bs false).bufs (ngxChainGetFreeBuf r).1).temporary = true ∧
      ((queueReceived r false bs false).bufs (ngxChainGetFreeBuf r).1).flush = true := by
    simp [queueReceived, Relay.setFlow, Relay.setBuf, hbs]
  refine ⟨⟨?_, ?_⟩, ?_, ?_⟩
  · intro j hj
    by_cases hi : j = (ngxChainGetFreeBuf r).1
    · rw [hi]
      exact hnew.2
    · rw [hbufs j hi]
      rw [hqueue, List.mem_append, List.mem_singleton] at hj
      exact h.flushes.flush j (hj.resolve_right hi)
  · intro j hj
    by_cases hi : j = (ngxChainGetFreeBuf r).1
    · rw [hi, ngxBufSpecial, hnew.1]
      simp
    · rw [hbufs j hi]
      refine h.flushes.data j ?_
      rw [hqueue] at hj
      cases hq : (r.flows false).queue with
      | nil => simp [hq] at hj
      | cons k rest =>
        rw [hq, List.cons_append, List.tail_cons, List.mem_append, List.mem_singleton] at hj
        exact hj.resolve_right hi
  · have hsurplus := h.surplus
    rw [hqueue, hflow]
    simp only [List.length_append, List.length_singleton]
    omega
  · rw [hflow]
    simp [h.unended]

theorem read (htype : conf.type = .dgram) (h : Surplus r) (recv : Recv) (hrecord : RecordsOnly false r recv) :
    Surplus (processRead conf r false recv).1 := by
  have harrive := @arrive conf r h recv
  obtain heq | ⟨bs, eof, heq, hreads⟩ := processRead_cases conf r false recv
  · rw [heq]
    exact harrive
  · obtain ⟨hdata, rfl⟩ := record_read htype h.unended hrecord hreads
    rw [heq]
    exact harrive.receive hdata

end Surplus

/-! ### Before the connection -/

/-- What was sent to the upstream, and then what waits for it, are the records that were read. -/
def Relay.RecordsExact (r : Relay) : Prop := (r.flows false).sent ++ r.pending false = (r.flows false).received

instance (r : Relay) : Decidable r.RecordsExact := inferInstanceAs (Decidable (_ = _))

/-- As long as the upstream is not connected the records wait in the order they came. -/
structure Awaits (r : Relay) : Prop where
  sound : r.Sound
  waiting : r.connected = false
  flushes : ∀ i ∈ (r.flows false).queue, (r.bufs i).flush = true ∧ ngxBufSpecial (r.bufs i) = false
  consumed : ∃ b, r.buffer = some b ∧ b.pos = b.last
  unsent : (r.flows false).sent = []
  pending : r.pending false = (r.flows false).received
  unended : (r.flows false).ended = false

namespace Awaits

theorem exact (h : Awaits r) : r.RecordsExact := by
  rw [Relay.RecordsExact, h.unsent, List.nil_append, h.pending]

theorem finalize (h : Awaits r) : Awaits { r with finalized := true } :=
  ⟨h.sound.finalize, h.waiting, h.flushes, h.consumed, h.unsent, h.pending, h.unended⟩

theorem write (h : Awaits r) (send : Send) : processWrite conf r false send = r := by
  simp [processWrite, h.waiting]

theorem arrive (h : Awaits r) (recv : Recv) : Awaits (r.arrive conf false recv) := by
  have hflow : (r.arrive conf false recv).flows false =
      { r.flows false with arrived := (r.flows false).arrived ++ arrivals conf recv } := by
    rw [arrive_eq, Relay.setFlow_flows]
  rw [arrive_eq] at hflow ⊢
  refine ⟨h.sound.setFlow false rfl rfl rfl rfl, h.waiting, ?_, h.consumed, ?_, ?_, ?_⟩
  · rw [hflow]
    exact h.flushes
  · rw [hflow]
    exact h.unsent
  · rw [Relay.pending, hflow]
    exact h.pending
  · rw [hflow]
    exact h.unended

theorem read (htype : conf.type = .dgram) (h : Awaits r) (recv : Recv) (hrecord : RecordsOnly false r recv) :
    Awaits (processRead conf r false recv).1 := by
  have harrive := @arrive conf r h recv
  obtain heq | ⟨bs, eof, heq, hreads⟩ := processRead_cases conf r false recv
  · rw [heq]
    exact harrive
  · obtain ⟨hdata, rfl⟩ := record_read htype h.unended hrecord hreads
    rw [heq]
    obtain ⟨hsound, hreceived⟩ := queueReceived_received harrive.sound false bs false
    obtain ⟨start, hnew⟩ := hreceived.new
    refine ⟨hsound, hreceived.connected.trans harrive.waiting, ?_, ?_, ?_, ?_, ?_⟩
    · intro i hi
      rw [hreceived.queue_eq, List.mem_append, List.mem_singleton] at hi
      obtain hi | rfl := hi
      · rw [hreceived.keep false i hi]
        exact harrive.flushes i hi
      · rw [hnew]
        exact ⟨rfl, by simp [ngxBufSpecial, hdata]⟩
    · rw [hreceived.buffer]
      exact harrive.consumed
    · rw [hreceived.flow]
      exact harrive.unsent
    · rw [Relay.pending, hreceived.bytes_queue harrive.sound, hreceived.flow]
      exact congrArg (· ++ [bs]) harrive.pending
    · rw [hreceived.flow, harrive.unended]
      rfl

/-- The connection of the upstream puts the consumed datagram before the records. -/
theorem connect (hheader : conf.proxyProtocol = none) (h : Awaits r) : Surplus (r.connect conf) := by
  obtain ⟨b, hbuffer, hconsumed⟩ := h.consumed
  have harea := h.sound.buffer b hbuffer
  have hopen : r.connect conf = { (r.prepend { b with tag := true, temporary := b.pos ≠ b.last, flush := true }) with
      connected := true } := by
    simp [Relay.connect, Relay.addPreread, Relay.addHeader, hheader, hbuffer, hconsumed]
  obtain ⟨-, hqueue, -, hfalse, hbuf, -, hkeep, -, -⟩ :=
    prepend_sound h.sound h.waiting (NgxBuf.queued_preread harea hconsumed.le) (by simp [harea])
  have hlength := congrArg List.length h.pending
  rw [Relay.pending, chainBytes, List.length_map] at hlength
  rw [hopen]
  refine ⟨⟨?_, ?_⟩, ?_, ?_⟩
  · show ∀ i ∈ ((r.prepend _).flows false).queue, ((r.prepend _).bufs i).flush = true
    rw [hqueue]
    intro i hi
    obtain rfl | hi := List.mem_cons.mp hi
    · rw [hbuf]
    · rw [hkeep false i hi]
      exact (h.flushes i hi).1
  · show ∀ i ∈ ((r.prepend _).flows false).queue.tail, ngxBufSpecial ((r.prepend _).bufs i) = false
    rw [hqueue, List.tail_cons]
    intro i hi
    rw [hkeep false i hi]
    exact (h.flushes i hi).2
  · show ((r.prepend _).flows false).received.length <
      ((r.prepend _).flows false).sent.length + ((r.prepend _).flows false).queue.length
    rw [hqueue, hfalse, List.length_cons]
    simp only
    omega
  · show ((r.prepend _).flows false).ended = false
    rw [hfalse]
    exact h.unended

theorem process (htype : conf.type = .dgram) (h : Awaits r) {doWrite : Bool} {send : Send}
    {rounds : List (Recv × Send)} (hok : RoundsOk conf false (RecordsOnly false) (fun _ _ => True) rounds r) :
    Awaits (ngxStreamProxyProcess conf r false doWrite send rounds) := by
  have hfirst : (if doWrite then processWrite conf r false send else r) = r := by
    rw [h.write, ite_self]
  rw [ngxStreamProxyProcess, hfirst]
  refine processLoop_invariant (fun r recv hr hrecord => hr.read htype recv hrecord) ?_ h hok
  intro r send hr _
  rw [hr.write]
  exact hr

end Awaits

/-! ### Runs -/

theorem Surplus.not_exact (h : Surplus r) : ¬r.RecordsExact := by
  intro hexact
  have hsurplus := h.surplus
  have hlength := congrArg List.length hexact
  rw [List.length_append, Relay.pending, chainBytes, List.length_map] at hlength
  omega

/-- The step neither connects the upstream nor drops records together with an upstream that failed. -/
def KeepsWaiting (r : Relay) : RelayEvent → Prop
  | .connect _ _ => r.finalized = true
  | .nextUpstream => r.finalized = true ∨ (r.flows false).queue = []
  | _ => True

instance (r : Relay) : ∀ e, Decidable (KeepsWaiting r e)
  | .connect _ _ => inferInstanceAs (Decidable (r.finalized = true))
  | .nextUpstream => inferInstanceAs (Decidable (_ ∨ _))
  | .process _ _ _ _ => inferInstanceAs (Decidable True)
  | .finalize => inferInstanceAs (Decidable True)

namespace Awaits

theorem step (htype : conf.type = .dgram) (r : Relay) (e : RelayEvent) (h : Awaits r)
    (hrecords : EventOk conf RecordsOnly (fun _ _ _ => True) r e) (hwaits : KeepsWaiting r e) :
    Awaits (r.step conf e) := by
  by_cases hfin : r.finalized = true
  · unfold Relay.step
    rw [if_pos hfin]
    exact h
  · unfold Relay.step
    rw [if_neg hfin]
    have hlive : r.finalized = false := by simpa using hfin
    cases e with
    | process d doWrite send rounds =>
      cases d with
      | true => simpa [h.waiting] using h
      | false =>
        have hrounds := (hrecords hlive fun hd => by cases hd).2
        rw [h.write, ite_self] at hrounds
        exact h.process htype hrounds
    | connect send rounds => exact absurd hwaits hfin
    | nextUpstream =>
      have hempty := hwaits.resolve_left hfin
      have hout : (r.flows false).out = [] := (List.append_eq_nil_iff.mp hempty).2
      have hsame : (r.setFlow false fun f => { f with out := [] }) = r := by
        have hflow : ({ r.flows false with out := [] } : Flow) = r.flows false := by rw [← hout]
        rw [Relay.setFlow, hflow, Function.update_eq_self]
      simp only [hsame, ite_self]
      exact h
    | finalize => exact h.finalize

theorem breaks (htype : conf.type = .dgram) (hheader : conf.proxyProtocol = none) (r : Relay) (e : RelayEvent)
    (h : Awaits r) (hrecords : EventOk conf RecordsOnly (fun _ _ _ => True) r e)
    (hexact : (r.step conf e).RecordsExact) : KeepsWaiting r e := by
  cases e with
  | process d doWrite send rounds => trivial
  | connect send rounds =>
    by_contra hfin
    have hlive : r.finalized = false := by simpa [KeepsWaiting] using hfin
    have hrounds := (hrecords hlive h.waiting).2
    have hsurplus : Surplus (ngxStreamProxyProcess conf (r.connect conf) false true send rounds) :=
      processLoop_invariant (fun r recv hr hrecord => hr.read htype recv hrecord) (fun r send hr _ => hr.write htype send)
        ((h.connect hheader).write htype send) hrounds
    refine hsurplus.not_exact ?_
    have hstep : r.step conf (.connect send rounds) = ngxStreamProxyProcess conf (r.connect conf) false true send rounds := by
      rw [Relay.step, if_neg (by simp [hlive])]
      exact if_neg (by simp [h.waiting])
    rw [← hstep]
    exact hexact
  | nextUpstream =>
    by_contra hdrop
    simp only [KeepsWaiting, not_or] at hdrop
    have hstep : r.step conf .nextUpstream = r.setFlow false fun f => { f with out := [] } := by
      rw [Relay.step, if_neg hdrop.1]
      exact if_neg (by simp [h.waiting, htype])
    have hpending : (r.setFlow false fun f => { f with out := [] }).pending false = [] := by
      rw [Relay.pending, Relay.setFlow_flows]
      simp [Flow.queue, h.sound.waiting h.waiting, chainBytes]
    rw [hstep, Relay.RecordsExact, hpending, Relay.setFlow_flows] at hexact
    have hlength := congrArg List.length (h.pending.trans (hexact.symm.trans (by rw [h.unsent])))
    rw [Relay.pending, chainBytes, List.length_map] at hlength
    exact hdrop.2 (List.length_eq_zero_iff.mp hlength)
  | finalize => trivial

end Awaits

/-- In every state of a run of records the upstream was sent, or is about to be sent, the records and nothing else,
exactly if in this run the upstream is never connected and none fails while records wait for it. -/
theorem records_exact_iff {conf : RelayConf} (htype : conf.type = .dgram) (hheader : conf.proxyProtocol = none)
    (handshake : List UInt8) {es : List RelayEvent}
    (hrecords : Along (Relay.step conf) (EventOk conf RecordsOnly fun _ _ _ => True)
      (Relay.start conf (some (handshake, handshake.length))) es) :
    (∀ es', es' <+: es →
        (run (Relay.step conf) (Relay.start conf (some (handshake, handshake.length))) es').RecordsExact) ↔
      Along (Relay.step conf) KeepsWaiting (Relay.start conf (some (handshake, handshake.length))) es := by
  refine reached_iff_along (fun r hr => hr.exact) (Awaits.step htype) (Awaits.breaks htype hheader) ?_ hrecords
  refine ⟨Relay.start_sound _ _, rfl, ?_, ⟨_, rfl, rfl⟩, rfl, rfl, rfl⟩
  intro i hi
  simp [Relay.start, Flow.queue] at hi

theorem noHeader_ne : (none : Option (List UInt8)) ≠ some [] := (Option.some_ne_none _).symm

/-- A datagram socket of the session itself. -/
def dtlsListener : RelayConf :=
  { type := .dgram, bufferSize := 16, shared := false, proxyProtocol := none, header_ne := noHeader_ne }

/-- Two records come in before the session is given up. -/
theorem records_exact_waiting :
    let es : List RelayEvent := [.process false false .notReady [(.data [1, 2], .notReady), (.data [3], .notReady)],
      .finalize]
    ∀ es', es' <+: es →
      (run (Relay.step dtlsListener) (Relay.start dtlsListener (some ([22, 254], 2))) es').RecordsExact := by
  intro es
  exact (@records_exact_iff dtlsListener rfl rfl [22, 254] es (by decide)).mpr (by decide)

/-- The upstream connects and takes one record: an empty datagram goes before it. -/
theorem records_with_empty :
    let es : List RelayEvent := [.connect (.accepted 1) [], .process false false .notReady [(.data [1, 2], .accepted 1)]]
    let r := run (Relay.step dtlsListener) (Relay.start dtlsListener (some ([22, 254], 2))) es
    (r.flows false).received = [[1, 2]] ∧ (r.flows false).sent = [[], [1, 2]] ∧ r.pending false = [] ∧
      ¬r.RecordsExact := by
  decide

end NginxDtls
