import NginxDtls.RelayFlow

/-! A byte stream goes through the relay in order and complete. Data never waits behind an empty buffer, because only
the end of the stream makes one; so the chain that a refused send leaves has data at its head, and the write filter
and the proxy release the same buffers. -/

namespace NginxDtls

open Run

/-- Of a stream the bytes count, all of them. -/
theorem flatten_comparison {conf : RelayConf} (htype : conf.type = .stream) :
    Comparison UInt8 conf List.flatten Eq := by
  refine ⟨fun _ _ => List.flatten_append, fun h => List.flatten_eq_nil_iff.mpr h, fun _ => rfl, ?_, ?_, ?_⟩
  · rintro a b c rfl
    rfl
  · rintro a b c rfl
    rfl
  · intro hdgram
    rw [htype] at hdgram
    cases hdgram

/-- No data waits behind an empty buffer, and an empty buffer is there only at the end of the stream. -/
def Relay.DataFirst (r : Relay) (d : Bool) : Prop :=
  (r.flows d).queue.Pairwise (fun i j => (r.bufs j).temporary = true → (r.bufs i).temporary = true) ∧
    ∀ i ∈ (r.flows d).queue, (r.bufs i).temporary = false → (r.flows d).ended = true

namespace Relay.DataFirst

variable {conf : RelayConf} {r r' : Relay} {d : Bool}

/-- Parts of the queue, with the same data and the same end. -/
theorem of_sublist (h : r.DataFirst d) (hsub : (r'.flows d).queue.Sublist (r.flows d).queue)
    (htemp : ∀ i ∈ (r'.flows d).queue, (r'.bufs i).temporary = (r.bufs i).temporary)
    (hended : (r'.flows d).ended = (r.flows d).ended) : r'.DataFirst d := by
  refine ⟨(h.1.sublist hsub).imp_of_mem ?_, ?_⟩
  · intro i j hi hj hij
    rw [htemp i hi, htemp j hj]
    exact hij
  · intro i hi ht
    rw [hended]
    exact h.2 i (hsub.subset hi) (htemp i hi ▸ ht)

/-- Where there is data, there is data at the head. -/
theorem unsent (h : r.DataFirst d) (hr : r.Sound) (hdata : ∃ i ∈ (r.flows d).queue, ngxBufSize (r.bufs i) ≠ 0) :
    Unsent r.bufs (r.flows d).queue := by
  intro i hi
  obtain ⟨j, hj, hsize⟩ := hdata
  have htempj := NgxBuf.temporary_of_size hsize
  have htemp : (r.bufs i).temporary = true := by
    cases hq : (r.flows d).queue with
    | nil =>
      rw [hq] at hj
      cases hj
    | cons i' rest =>
      rw [hq] at hi hj
      cases hi
      have hpair := h.1
      rw [hq, List.pairwise_cons] at hpair
      obtain rfl | hj := List.mem_cons.mp hj
      · exact htempj
      · exact hpair.1 j hj htempj
  have hsized := (hr.queued d i (List.mem_of_mem_head? hi)).sized
  refine hsized.resolve_right ?_
  simp [ngxBufSpecial, htemp]

theorem written {bufs : ℕ → NgxBuf} {done rest : List ℕ} {ss : List (List UInt8)} (h : ∀ d', r.DataFirst d')
    (hr : r.Sound) (hw : Written r r' d bufs done rest ss) : ∀ d', r'.DataFirst d' := by
  refine forall_flow d ?_ ?_
  · refine (h d).of_sublist ?_ ?_ ?_
    · rw [hw.queue_eq, hw.sent.split]
      exact List.sublist_append_right _ _
    · intro i hi
      rw [hw.queue_eq] at hi
      obtain ⟨k, hk⟩ := hw.sent.same i (hw.sent.split ▸ List.mem_append_right _ hi)
      rw [hw.rest_bufs hr i hi, hk]
      rfl
    · rw [hw.flow]
  · refine (h _).of_sublist ?_ ?_ ?_
    · rw [hw.other]
    · intro i hi
      rw [hw.other] at hi
      rw [hw.other_bufs hr i hi]
    · rw [hw.other]

theorem received {bs : List UInt8} {eof : Bool} {i : ℕ} (h : ∀ d', r.DataFirst d') (hr : Received r r' d bs eof i)
    (hend : (r.flows d).ended = true → bs = []) (heof : bs = [] → ((r.flows d).ended || eof) = true) :
    ∀ d', r'.DataFirst d' := by
  have hended : (r'.flows d).ended = ((r.flows d).ended || eof) := by rw [hr.flow]
  have hnew : (r'.bufs i).temporary = !bs.isEmpty := by
    obtain ⟨start, hnew⟩ := hr.new
    rw [hnew]
  have hkeep := hr.keep d
  refine forall_flow d ⟨?_, ?_⟩ ?_
  · rw [hr.queue_eq]
    refine List.pairwise_append.mpr ⟨?_, List.pairwise_singleton _ _, ?_⟩
    · refine (h d).1.imp_of_mem ?_
      intro j k hj hk hjk
      rw [hkeep j hj, hkeep k hk]
      exact hjk
    · intro j hj k hk htemp
      rw [List.mem_singleton] at hk
      subst hk
      rw [hkeep j hj]
      by_contra hfalse
      have hnil := hend ((h d).2 j hj (by simpa using hfalse))
      rw [hnew, hnil] at htemp
      cases htemp
  · intro j hj htemp
    rw [hended]
    rw [hr.queue_eq, List.mem_append, List.mem_singleton] at hj
    obtain hj | rfl := hj
    · rw [hkeep j hj] at htemp
      rw [(h d).2 j hj htemp]
      rfl
    · rw [hnew] at htemp
      exact heof (by simpa using htemp)
  · refine (h _).of_sublist ?_ ?_ ?_
    · rw [hr.other]
    · intro j hj
      rw [hr.other] at hj
      rw [hr.keep _ j hj]
    · rw [hr.other]

theorem prepend (h : ∀ d', r.DataFirst d') (hr : r.Sound) (hwait : r.connected = false) {b : NgxBuf}
    (hb : b.Queued false 0) (hown : ∀ d, b.area ≠ .proxy d) (htemp : b.temporary = true) :
    ∀ d', (r.prepend b).DataFirst d' := by
  obtain ⟨-, hqueue, htrue, hfalse, hbuf, -, hkeep, -, -⟩ := prepend_sound hr hwait hb hown
  refine forall_flow false ⟨?_, ?_⟩ ?_
  · rw [hqueue]
    refine List.pairwise_cons.mpr ⟨fun j _ _ => by rw [hbuf]; exact htemp, ?_⟩
    refine (h false).1.imp_of_mem ?_
    intro j k hj hk hjk
    rw [hkeep false j hj, hkeep false k hk]
    exact hjk
  · intro j hj ht
    rw [hfalse]
    rw [hqueue, List.mem_cons] at hj
    obtain rfl | hj := hj
    · rw [hbuf, htemp] at ht
      cases ht
    · rw [hkeep false j hj] at ht
      exact (h false).2 j hj ht
  · rw [Bool.not_false]
    refine (h true).of_sublist ?_ ?_ ?_
    · rw [htrue]
    · intro j hj
      rw [htrue] at hj
      rw [hkeep true j hj]
    · rw [htrue]

end Relay.DataFirst

/-! ### Steps -/

variable {conf : RelayConf} {first : Option (List UInt8)}

/-- A send takes any number of bytes from the head of the chain. -/
theorem stream_sendsWell (htype : conf.type = .stream) {r : Relay} {d : Bool} (hr : r.Sound) (hfirst : r.DataFirst d)
    (send : Send) : SendsWell conf r d send (r.Preserves d List.flatten) := by
  intro res hres _ hmem
  have hdata : ∃ i ∈ (r.flows d).queue, ngxBufSize (r.bufs i) ≠ 0 := by
    obtain ⟨i, hi, hsize | hdgram⟩ := hmem
    · exact ⟨i, hi, hsize⟩
    · rw [htype] at hdgram
      cases hdgram
  cases send with
  | notReady =>
    cases hres
    exact ⟨[], SentFrom.refl (hr.queued d), hfirst.unsent hr hdata, rfl⟩
  | accepted n =>
    simp only [sendChain, htype, Option.some.injEq] at hres
    obtain ⟨done, hfrom, hunsent, hbytes⟩ := ngxChainUpdateSent_spec r.mem (hr.nodup d) (hr.queued d) n
    subst hres
    refine ⟨done, hfrom, hunsent, ?_⟩
    have hsent : [((r.flows d).queue.flatMap fun i => (r.bufs i).bytes r.mem).take n].flatten =
        (r.pending d).flatten.take n := List.append_nil _
    show [((r.flows d).queue.flatMap fun i => (r.bufs i).bytes r.mem).take n].flatten ++ _ = _
    rw [hsent]
    exact (congrArg (_ ++ ·) hbytes).trans (List.take_append_drop n _)
  | error => cases hres

/-- What holds of a session that relays a stream. -/
structure StreamOk (conf : RelayConf) (first : Option (List UInt8)) (r : Relay) : Prop where
  carries : r.Carries conf List.flatten Eq first
  dataFirst : ∀ d, r.DataFirst d
  preread : ∀ b, r.buffer = some b → b.pos < b.last

namespace StreamOk

variable {r : Relay}

theorem write (htype : conf.type = .stream) (h : StreamOk conf first r) (d : Bool) (send : Send) :
    StreamOk conf first (processWrite conf r d send) := by
  have hwell := stream_sendsWell htype h.carries.sound (h.dataFirst d) send
  refine ⟨h.carries.write (flatten_comparison htype) hwell, ?_, ?_⟩
  all_goals
    obtain heq | heq | ⟨-, bufs, done, rest, ss, hw, -⟩ :=
      processWrite_cases (K := fun _ _ _ => True) h.carries.sound (hwell.mono fun _ _ _ _ => trivial) fun _ => trivial
  · rw [heq]
    exact h.dataFirst
  · rw [heq]
    exact h.dataFirst
  · exact Relay.DataFirst.written h.dataFirst h.carries.sound hw
  · rw [heq]
    exact h.preread
  · rw [heq]
    exact h.preread
  · rw [hw.buffer]
    exact h.preread

theorem read (htype : conf.type = .stream) (h : StreamOk conf first r) (d : Bool) (recv : Recv) :
    StreamOk conf first (processRead conf r d recv).1 := by
  have harrive : r.arrive conf d recv = r := by
    cases recv <;> simp [Relay.arrive, htype]
  have hcarries := h.carries.read (flatten_comparison htype) (d := d) recv
  obtain heq | ⟨bs, eof, heq, -, hreads⟩ := processRead_cases conf r d recv
  · rw [heq, harrive]
    exact h
  · rw [heq, harrive] at hcarries ⊢
    obtain ⟨-, hreceived⟩ := queueReceived_received h.carries.sound d bs eof
    refine ⟨hcarries, Relay.DataFirst.received h.dataFirst hreceived ?_ ?_, ?_⟩
    · intro hended
      obtain ⟨-, hbs, -⟩ | ⟨x, -, hbs, -⟩ := hreads
      · exact hbs
      · rw [hbs, if_pos hended]
    · intro hnil
      obtain ⟨-, -, heof⟩ | ⟨x, -, -, heof⟩ := hreads
      · simp [heof]
      · simp [heof, htype, hnil]
    · rw [hreceived.buffer]
      exact h.preread

theorem connect (htype : conf.type = .stream) (h : StreamOk conf first r) (hwait : r.connected = false) :
    StreamOk conf first (r.connect conf) := by
  have hled := h.carries.addHeader (h.carries.addPreread hwait)
  refine ⟨h.carries.connect (flatten_comparison htype) hwait, ?_, ?_⟩
  · have hpreread : ∀ d, r.addPreread.DataFirst d := by
      unfold Relay.addPreread
      split
      · exact h.dataFirst
      · rename_i b hsome
        have hlt := h.preread b hsome
        have harea := h.carries.sound.buffer b hsome
        rw [if_pos hlt.le]
        exact Relay.DataFirst.prepend h.dataFirst h.carries.sound hwait (NgxBuf.queued_preread harea hlt.le)
          (by simp [harea]) (by simp [hlt.ne])
    have hfirst := h.carries.addPreread hwait
    show ∀ d, (r.addPreread.addHeader conf).DataFirst d
    unfold Relay.addHeader
    split
    · exact hpreread
    · rename_i bs hsome
      have hne : bs ≠ [] := fun heq => conf.header_ne (heq ▸ hsome)
      refine Relay.DataFirst.prepend hpreread hfirst.sound hfirst.waiting ?_ (by simp) rfl
      refine ⟨rfl, Or.inl ?_, Nat.zero_le _, by simp, by simp⟩
      simpa [ngxBufSize] using hne
  · show ∀ b, (r.addPreread.addHeader conf).buffer = some b → b.pos < b.last
    rw [hled.buffer]
    exact h.preread

theorem finalize (h : StreamOk conf first r) : StreamOk conf first { r with finalized := true } :=
  ⟨h.carries.finalize, h.dataFirst, h.preread⟩

theorem step (htype : conf.type = .stream) (h : StreamOk conf first r) (e : RelayEvent) :
    StreamOk conf first (r.step conf e) := by
  refine @step_invariant conf (fun _ _ _ => True) (fun _ _ _ => True) (StreamOk conf first)
    (fun d r recv hr _ => hr.read htype d recv) (fun d r send hr _ => hr.write htype d send)
    (fun r hr hwait => hr.connect htype hwait) ?_ (fun r hr => hr.finalize) r e h ?_
  · intro r hr hwait hdgram
    rw [htype] at hdgram
    cases hdgram
  · have hrounds : ∀ d rounds r, RoundsOk conf d (fun _ _ => True) (fun _ _ => True) rounds r :=
      fun d rounds r => roundsOk_of_forall (fun _ _ => trivial) (fun _ _ => trivial) rounds r
    cases e with
    | process d doWrite send rounds => exact fun _ _ => ⟨fun _ => trivial, hrounds _ _ _⟩
    | connect send rounds => exact fun _ _ => ⟨fun _ => trivial, hrounds _ _ _⟩
    | nextUpstream => trivial
    | finalize => trivial

end StreamOk

/-! ### Runs -/

/-- What goes to the upstream before the data of the client: the header, and what was read before the proxy. -/
def RelayConf.opening (conf : RelayConf) (first : Option (List UInt8)) (d : Bool) : List (List UInt8) :=
  if d = false then conf.proxyProtocol.toList ++ first.toList else []

/-- As long as the upstream is not connected, that is in `c->buffer`. -/
def Relay.unqueued (r : Relay) (conf : RelayConf) (first : Option (List UInt8)) (d : Bool) : List (List UInt8) :=
  if r.connected then [] else conf.opening first d

/-- `c->buffer` as `ngx_stream_core_preread_phase` leaves it: it goes on to the next phase only after bytes have come
in, and no preread handler takes them all. -/
structure Preread where
  data : List UInt8
  pos : ℕ
  lt : pos < data.length

def Preread.buffer (p : Preread) : List UInt8 × ℕ := (p.data, p.pos)

def Preread.unread (p : Preread) : List UInt8 := p.data.drop p.pos

/-- A byte stream is relayed first in, first out: what was sent, then what waits in `c->buffer`, in the chain of the
write filter and in `out`, is what was received, whatever the sizes of reads and sends and whenever the upstream
connects. Every buffer that waits lies below `b->last`, where nothing is read to, and a rewound buffer has none. -/
theorem stream_relay_fifo {conf : RelayConf} (htype : conf.type = .stream) (preread : Option Preread)
    (es : List RelayEvent) (d : Bool) :
    let first := preread.map Preread.unread
    let r := run (Relay.step conf) (Relay.start conf (preread.map Preread.buffer)) es
    (r.flows d).sent.flatten ++ (r.unqueued conf first d).flatten ++ (r.pending d).flatten =
        (conf.opening first d).flatten ++ (r.flows d).received.flatten ∧
      ∀ i ∈ (r.flows d).queue, (r.bufs i).area = .proxy d → (r.bufs i).last ≤ (r.flows d).last := by
  intro first r
  have hstart : StreamOk conf first (Relay.start conf (preread.map Preread.buffer)) := by
    have hlt : ∀ b, preread.map Preread.buffer = some b → b.2 < b.1.length := by
      intro b hb
      obtain ⟨p, -, rfl⟩ := Option.map_eq_some_iff.mp hb
      exact p.lt
    have hcarries := Relay.start_carries (flatten_comparison htype) (preread.map Preread.buffer) fun b hb => (hlt b hb).le
    rw [Option.map_map] at hcarries
    refine ⟨hcarries, ?_, ?_⟩
    · intro d
      exact ⟨List.Pairwise.nil, fun i hi => by simp [Relay.start, Flow.queue] at hi⟩
    · intro b hb
      obtain ⟨b', hb', rfl⟩ := Option.map_eq_some_iff.mp hb
      exact hlt b' hb'
  have hend : StreamOk conf first r := run_induction (fun r e hr => hr.step htype e) hstart es
  refine ⟨?_, fun i hi => (hend.carries.sound.queued d i hi).below⟩
  have hflow := hend.carries.flow d
  have hidle := hend.carries.idle
  cases d with
  | true =>
    have hlead : r.lead conf first true = [] := by simp [Relay.lead]
    have hopening : conf.opening first true = [] := by simp [RelayConf.opening]
    have hunqueued : r.unqueued conf first true = [] := by simp [Relay.unqueued, hopening]
    rw [hlead] at hflow
    rw [hopening, hunqueued, List.flatten_nil, List.append_nil]
    exact hflow
  | false =>
    by_cases hc : r.connected = true
    · have hlead : r.lead conf first false = conf.opening first false := by simp [Relay.lead, RelayConf.opening, hc]
      have hunqueued : r.unqueued conf first false = [] := by simp [Relay.unqueued, hc]
      rw [hunqueued, ← hlead, List.flatten_nil, List.append_nil]
      exact hflow
    · have hwait : r.connected = false := by simpa using hc
      have hlead : r.lead conf first false = [] := by simp [Relay.lead, hwait]
      have hunqueued : r.unqueued conf first false = conf.opening first false := by simp [Relay.unqueued, hwait]
      rw [hlead, hidle hwait] at hflow
      rw [hunqueued, hidle hwait, List.flatten_nil, List.nil_append]
      exact congrArg (_ ++ ·) hflow

/-- Three bytes are read before the proxy and two while the upstream connects; the upstream takes four, then is not
ready while three more bytes come in, then takes the rest. -/
theorem stream_relay_fifo_partial :
    let conf : RelayConf := { type := .stream, bufferSize := 8, shared := false, proxyProtocol := none }
    let preread : Preread := { data := [1, 2, 3], pos := 0, lt := by decide }
    let es : List RelayEvent := [.process false false .notReady [(.data [4, 5], .notReady)], .connect (.accepted 4) [],
      .process false false .notReady [(.data [6, 7, 8], .notReady)], .process false true (.accepted 9) []]
    let r := run (Relay.step conf) (Relay.start conf (some preread.buffer)) es
    conf.type = .stream ∧ (r.flows false).sent.flatten ++ (r.pending false).flatten = [1, 2, 3, 4, 5, 6, 7, 8] := by
  intro conf preread es r
  have hfifo := (@stream_relay_fifo conf rfl (some preread) es false).1
  have hunqueued : r.unqueued conf (some preread.unread) false = [] := by decide
  have hopening : (conf.opening (some preread.unread) false).flatten = [1, 2, 3] := by decide
  have hreceived : (r.flows false).received.flatten = [4, 5, 6, 7, 8] := by decide
  have hr : run (Relay.step conf) (Relay.start conf (some preread.buffer)) es = r := rfl
  simp only [Option.map_some, hr, hunqueued, hopening, hreceived, List.flatten_nil, List.append_nil] at hfifo
  exact ⟨rfl, hfifo⟩

end NginxDtls
