import NginxDtls.RelayFlow

/-! Datagrams through the relay. All datagrams of one direction share one proxy buffer, and `recv` is given what is
left of it: a longer datagram is cut. An empty datagram has a buffer without data, which `ngx_chain_update_chains`
takes for a buffer that is done with while the write filter still holds it, if the send stops there. A run that does
neither relays every datagram as it came, or drops it. -/

namespace NginxDtls

open Run

/-- Of datagrams the ones with data count, and some may be missing. -/
theorem sublist_comparison (conf : RelayConf) : Comparison (List UInt8) conf nonEmpty List.Sublist := by
  refine ⟨nonEmpty_append, ?_, List.Sublist.refl, ?_, ?_, ?_⟩
  · intro ds h
    exact List.filter_eq_nil_iff.mpr fun b hb => by simp [h b hb]
  · exact fun c h => h.append_right c
  · exact fun c h => h.append_left c
  · exact fun _ a b c h => (List.sublist_append_left a c).trans h

/-! ### What goes wrong -/

/-- The datagram that `recv` finds fits into what is left of the proxy buffer, or nothing is left and it is not read. -/
def FitsFree (conf : RelayConf) (d : Bool) (r : Relay) : Recv → Prop
  | .data bs => d = false → (r.flows d).last < conf.bufferSize → (r.flows d).last + bs.length ≤ conf.bufferSize
  | _ => True

/-- The datagrams that a send leaves. -/
def Send.leaves : Send → List (List UInt8) → List (List UInt8)
  | .notReady, ds => ds
  | .accepted n, ds => unsentAfter n ds
  | .error, _ => []

/-- The send to the upstream does not stop at an empty datagram. -/
def StopsAtData (d : Bool) (r : Relay) (send : Send) : Prop :=
  d = false → r.connected = true → (send.leaves (r.pending d)).head? ≠ some []

instance (conf : RelayConf) (d : Bool) (r : Relay) : ∀ recv, Decidable (FitsFree conf d r recv)
  | .data _ => inferInstanceAs (Decidable (_ → _ → _))
  | .again => inferInstanceAs (Decidable True)
  | .error => inferInstanceAs (Decidable True)

instance (d : Bool) (r : Relay) (send : Send) : Decidable (StopsAtData d r send) :=
  inferInstanceAs (Decidable (_ → _ → _))

/-! ### Steps -/

variable {conf : RelayConf} {first : Option (List UInt8)}

theorem unsent_of_head {bufs : ℕ → NgxBuf} {chain : List ℕ} {mem : Areas}
    (h : (chainBytes mem bufs chain).head? ≠ some []) : Unsent bufs chain := by
  intro i hi hsize
  refine h ?_
  rw [chainBytes, List.head?_map, hi, Option.map_some, NgxBuf.bytes_eq_nil_of_size hsize]

/-- What holds of a session that relays datagrams. -/
structure DatagramOk (conf : RelayConf) (first : Option (List UInt8)) (r : Relay) : Prop where
  carries : r.Carries conf nonEmpty List.Sublist first
  flush : ∀ d, ∀ i ∈ (r.flows d).queue, (r.bufs i).flush = true
  whole : (nonEmpty (r.flows false).received).Sublist (nonEmpty (r.flows false).arrived)

/-- A send that does not stop at an empty datagram takes whole datagrams from the head of the chain. To the client
everything goes or the session ends. -/
theorem datagram_sendsWell (htype : conf.type = .dgram) (hshared : conf.shared = true) {r : Relay}
    (h : DatagramOk conf first r) {d : Bool} {send : Send} (hwait : (d || r.connected) = true)
    (hstops : StopsAtData d r send) : SendsWell conf r d send (r.Preserves d nonEmpty) := by
  have hr := h.carries.sound
  intro res hres hleft _
  -- In direction `true` nothing is left, in direction `false` data is at the head of what is left.
  have hunsent : res.chain = [] ∨ d = false ∧ r.connected = true := by
    cases d with
    | true => exact Or.inl (by simpa [hshared] using hleft)
    | false => exact Or.inr ⟨rfl, by simpa using hwait⟩
  cases send with
  | notReady =>
    cases hres
    refine ⟨[], SentFrom.refl (hr.queued d), ?_, rfl⟩
    obtain hnil | ⟨hd, hconn⟩ := hunsent
    · rw [hnil]
      simp [Unsent]
    · exact unsent_of_head (hstops hd hconn)
  | accepted n =>
    simp only [sendChain, htype, Option.some.injEq] at hres
    obtain ⟨done, hfrom, hsame, hsent, hrest⟩ :=
      @ngxUdpUnixSendmsgChain_spec _ r.mem _ _ _ (hr.nodup d) (hr.queued d) (h.flush d) n
    rw [hres] at hfrom hsame hsent hrest
    refine ⟨done, hfrom, ?_, ?_⟩
    · obtain hnil | ⟨hd, hconn⟩ := hunsent
      · rw [hnil]
        simp [Unsent]
      · have hhead : (chainBytes r.mem r.bufs res.chain).head? ≠ some [] := by
          rw [hrest]
          exact hstops hd hconn
        rw [← chainBytes_congr hsame] at hhead
        exact unsent_of_head hhead
    · calc nonEmpty res.sent ++ nonEmpty (chainBytes r.mem res.bufs res.chain)
          = nonEmpty (chainBytes r.mem r.bufs done) ++ nonEmpty (chainBytes r.mem r.bufs res.chain) := by
            rw [hsent, chainBytes_congr hsame]
        _ = nonEmpty (chainBytes r.mem r.bufs (done ++ res.chain)) := by rw [chainBytes_append, nonEmpty_append]
        _ = nonEmpty (r.pending d) := by rw [← hfrom.split, Relay.pending]
  | error => cases hres

namespace DatagramOk

variable {r : Relay}

theorem finalize (h : DatagramOk conf first r) : DatagramOk conf first { r with finalized := true } :=
  ⟨h.carries.finalize, h.flush, h.whole⟩

theorem written (h : DatagramOk conf first r) {r' : Relay} {d : Bool} {bufs : ℕ → NgxBuf} {done rest : List ℕ}
    {ss : List (List UInt8)} (hw : Written r r' d bufs done rest ss)
    (hcarries : r'.Carries conf nonEmpty List.Sublist first) : DatagramOk conf first r' := by
  have hsound := h.carries.sound
  have hlogs : ∀ d', (r'.flows d').received = (r.flows d').received ∧ (r'.flows d').arrived = (r.flows d').arrived := by
    refine forall_flow d ?_ ?_
    · rw [hw.flow]
      exact ⟨rfl, rfl⟩
    · rw [hw.other]
      exact ⟨rfl, rfl⟩
  refine ⟨hcarries, forall_flow d ?_ ?_, ?_⟩
  · intro i hi
    rw [hw.queue_eq] at hi
    have hmem : i ∈ (r.flows d).queue := hw.sent.split ▸ List.mem_append_right _ hi
    obtain ⟨k, hk⟩ := hw.sent.same i hmem
    rw [hw.rest_bufs hsound i hi, hk]
    exact h.flush d i hmem
  · intro i hi
    rw [hw.other] at hi
    rw [hw.other_bufs hsound i hi]
    exact h.flush _ i hi
  · rw [(hlogs false).1, (hlogs false).2]
    exact h.whole

theorem write (htype : conf.type = .dgram) (hshared : conf.shared = true) (h : DatagramOk conf first r) (d : Bool)
    (send : Send) (hstops : StopsAtData d r send) : DatagramOk conf first (processWrite conf r d send) := by
  by_cases hwait : (d || r.connected) = true
  · have hwell := datagram_sendsWell htype hshared h hwait hstops
    have hcarries := h.carries.write (sublist_comparison conf) hwell
    obtain heq | heq | ⟨-, bufs, done, rest, ss, hw, -⟩ :=
      @processWrite_cases _ _ _ _ (fun _ _ _ => True) h.carries.sound (hwell.mono fun _ _ _ _ => trivial)
        fun _ => trivial
    · rw [heq]
      exact h
    · rw [heq]
      exact h.finalize
    · exact h.written hw hcarries
  · have heq : processWrite conf r d send = r := by simp [processWrite, hwait]
    rw [heq]
    exact h

theorem read (htype : conf.type = .dgram) (h : DatagramOk conf first r) (d : Bool) (recv : Recv)
    (hfits : FitsFree conf d r recv) : DatagramOk conf first (processRead conf r d recv).1 := by
  have hcarries := h.carries.read (sublist_comparison conf) (d := d) recv
  have harrive : DatagramOk conf first (r.arrive conf d recv) := by
    rw [arrive_eq]
    refine ⟨h.carries.arrive d _, forall_flow d ?_ ?_, ?_⟩
    · rw [r.setFlow_flows]
      exact h.flush d
    · rw [r.setFlow_flows_of_ne (by simp)]
      exact h.flush _
    · cases d with
      | false =>
        rw [r.setFlow_flows, nonEmpty_append]
        exact h.whole.trans (List.sublist_append_left _ _)
      | true =>
        rw [r.setFlow_flows_of_ne (by simp)]
        exact h.whole
  obtain heq | ⟨bs, eof, heq, hlt, hreads⟩ := processRead_cases conf r d recv
  · rw [heq]
    exact harrive
  · rw [heq] at hcarries ⊢
    obtain ⟨-, hreceived⟩ := queueReceived_received harrive.carries.sound d bs eof
    refine ⟨hcarries, forall_flow d ?_ ?_, ?_⟩
    · intro i hi
      rw [hreceived.queue_eq, List.mem_append, List.mem_singleton] at hi
      obtain hi | rfl := hi
      · rw [hreceived.keep d i hi]
        exact harrive.flush d i hi
      · obtain ⟨start, hnew⟩ := hreceived.new
        rw [hnew]
    · intro i hi
      rw [hreceived.other] at hi
      rw [hreceived.keep _ i hi]
      exact harrive.flush _ i hi
    · cases d with
      | true =>
        have hother := hreceived.other
        rw [Bool.not_true] at hother
        rw [hother]
        exact harrive.whole
      | false =>
        have hnew : (nonEmpty [bs]).Sublist (nonEmpty (arrivals conf recv)) := by
          obtain ⟨-, rfl, -⟩ | ⟨x, rfl, hbs, -⟩ := hreads
          · exact List.nil_sublist _
          · by_cases hended : (r.flows false).ended = true
            · rw [hbs, if_pos hended]
              exact List.nil_sublist _
            · have hle : x.length ≤ conf.bufferSize - (r.flows false).last := by
                have := hfits rfl hlt
                omega
              rw [hbs, if_neg hended, List.take_of_length_le hle, arrivals, if_pos htype]
        show (nonEmpty ((queueReceived (r.arrive conf false recv) false bs eof).flows false).received).Sublist
          (nonEmpty ((queueReceived (r.arrive conf false recv) false bs eof).flows false).arrived)
        rw [hreceived.flow]
        simp only [arrive_eq, r.setFlow_flows, nonEmpty_append]
        exact h.whole.append hnew

theorem connect (hheader : conf.proxyProtocol = none) (h : DatagramOk conf first r) (hwait : r.connected = false) :
    DatagramOk conf first (r.connect conf) := by
  have hcarries := h.carries.connect (sublist_comparison conf) hwait
  have hled := h.carries.addHeader (h.carries.addPreread hwait)
  have hplain : r.addPreread.addHeader conf = r.addPreread := by
    unfold Relay.addHeader
    rw [hheader]
  have hpreread : (∀ d, ∀ i ∈ (r.addPreread.flows d).queue, (r.addPreread.bufs i).flush = true) ∧
      (nonEmpty (r.addPreread.flows false).received).Sublist (nonEmpty (r.addPreread.flows false).arrived) := by
    unfold Relay.addPreread
    split
    · exact ⟨h.flush, h.whole⟩
    · rename_i b hsome
      have harea := h.carries.sound.buffer b hsome
      obtain ⟨hle, -⟩ := h.carries.unread b hsome
      rw [if_pos hle]
      obtain ⟨-, hqueue, htrue, hfalse, hbuf, -, hkeep, -, -⟩ :=
        prepend_sound h.carries.sound hwait (NgxBuf.queued_preread harea hle) (by simp [harea])
      refine ⟨forall_flow false ?_ ?_, ?_⟩
      · intro i hi
        rw [hqueue, List.mem_cons] at hi
        obtain rfl | hi := hi
        · rw [hbuf]
        · rw [hkeep false i hi]
          exact h.flush false i hi
      · intro i hi
        rw [Bool.not_false, htrue] at hi
        rw [hkeep true i hi]
        exact h.flush true i hi
      · rw [hfalse]
        exact h.whole
  have hrest := hpreread
  rw [← hplain] at hrest
  exact ⟨hcarries, hrest.1, hrest.2⟩

theorem step (htype : conf.type = .dgram) (hshared : conf.shared = true) (hheader : conf.proxyProtocol = none)
    (r : Relay) (e : RelayEvent) (h : DatagramOk conf first r) (hok : EventOk conf (FitsFree conf) StopsAtData r e) :
    DatagramOk conf first (r.step conf e) := by
  refine step_invariant (fun d r recv hr hfits => hr.read htype d recv hfits)
    (fun d r send hr hstops => hr.write htype hshared d send hstops) (fun r hr hwait => hr.connect hheader hwait) ?_
    (fun r hr => hr.finalize) r e h hok
  intro r hr hwait _
  refine ⟨hr.carries.nextUpstream (sublist_comparison conf) htype hwait, forall_flow false ?_ ?_, ?_⟩
  · intro i hi
    rw [r.setFlow_flows, Flow.queue, List.append_nil] at hi
    exact hr.flush false i (List.mem_append_left _ hi)
  · rw [r.setFlow_flows_of_ne (by simp)]
    exact hr.flush _
  · rw [r.setFlow_flows]
    exact hr.whole

end DatagramOk

/-! ### Runs -/

/-- Every datagram that the relay hands to the send chain of the upstream came from the client, in full, and in the
order it came, as long as no datagram is longer than what is left of the proxy buffer and no send stops at an empty
one. -/
theorem datagrams_relayed {conf : RelayConf} (htype : conf.type = .dgram) (hshared : conf.shared = true)
    (hheader : conf.proxyProtocol = none) (first : Option (List UInt8)) {es : List RelayEvent}
    (hok : Along (Relay.step conf) (EventOk conf (FitsFree conf) StopsAtData)
      (Relay.start conf (first.map (·, 0))) es) :
    let r := run (Relay.step conf) (Relay.start conf (first.map (·, 0))) es
    (nonEmpty ((r.flows false).sent ++ r.pending false)).Sublist
      (nonEmpty (first.toList ++ (r.flows false).arrived)) := by
  intro r
  have hfirst : ((first.map (·, 0)).map fun b => b.1.drop b.2) = first := by
    cases first <;> rfl
  have hstart : DatagramOk conf first (Relay.start conf (first.map (·, 0))) := by
    have hcarries := Relay.start_carries (sublist_comparison conf) (first.map (·, 0)) fun b hb => by
      obtain ⟨bs, -, rfl⟩ := Option.map_eq_some_iff.mp hb
      exact Nat.zero_le _
    rw [hfirst] at hcarries
    refine ⟨hcarries, ?_, List.Sublist.refl _⟩
    intro d i hi
    simp [Relay.start, Flow.queue] at hi
  have hend : DatagramOk conf first r := run_invariant (DatagramOk.step htype hshared hheader) hstart hok
  have hlead : (nonEmpty (r.lead conf first false)).Sublist (nonEmpty first.toList) := by
    rw [Relay.lead, hheader]
    split
    · exact List.Sublist.refl _
    · exact List.nil_sublist _
  rw [nonEmpty_append, nonEmpty_append]
  exact (hend.carries.flow false).trans (hlead.append hend.whole)

/-- A proxy buffer of four bytes for datagrams from a shared socket. -/
def fourBytes : RelayConf := { type := .dgram, bufferSize := 4, shared := true, proxyProtocol := none }

/-- A datagram comes in while the upstream connects and an empty one behind it; the upstream takes the first two, then
one more read and write follow. -/
theorem datagrams_relayed_three :
    let es : List RelayEvent := [.process false false .notReady [(.data [2], .notReady)],
      .process false false .notReady [(.data [], .notReady)], .connect (.accepted 1) [],
      .process false true .notReady [(.data [8, 9, 10], .accepted 9)]]
    let r := run (Relay.step fourBytes) (Relay.start fourBytes (some ([1], 0))) es
    (nonEmpty ((r.flows false).sent ++ r.pending false)).Sublist [[1], [2], [8, 9, 10]] := by
  intro es r
  have hrelayed := @datagrams_relayed fourBytes rfl rfl rfl (some [1]) es (by decide)
  have harrived : nonEmpty ([[1]] ++ (r.flows false).arrived) = [[1], [2], [8, 9, 10]] := by decide
  exact harrived ▸ hrelayed

/-- Two datagrams of three bytes come in while the upstream connects: of the second only one byte is sent. -/
theorem datagrams_cut :
    let es : List RelayEvent := [.process false false .notReady [(.data [2, 3, 4], .notReady)],
      .process false false .notReady [(.data [5, 6, 7], .notReady)], .connect (.accepted 9) []]
    let r := run (Relay.step fourBytes) (Relay.start fourBytes (some ([1], 0))) es
    (∀ bs ∈ (r.flows false).arrived, bs.length ≤ fourBytes.bufferSize) ∧
      (r.flows false).sent = [[1], [2, 3, 4], [5]] ∧
      ¬(nonEmpty ((r.flows false).sent ++ r.pending false)).Sublist (nonEmpty ([1] :: (r.flows false).arrived)) := by
  decide

/-- The other defect: the buffer of an empty datagram that the send stopped at is used again, and the last datagram
is sent before the one that came before it. -/
example :
    let es : List RelayEvent := [.process false false .notReady [(.data [], .notReady)],
      .process false false .notReady [(.data [7], .notReady)], .connect .notReady [],
      .process false false .notReady [(.data [8], .accepted 2)]]
    let r := run (Relay.step fourBytes) (Relay.start fourBytes none) es
    (r.flows false).arrived = [[], [7], [8]] ∧ (r.flows false).sent = [[8], [7]] := by
  decide

end NginxDtls
