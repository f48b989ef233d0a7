import NginxDtls.RelaySound

/-! What a session carries from one side to the other. The bytes or datagrams that were sent, followed by those that
are queued, are what was received, after the header and what the client had sent before the proxy came in. For a
stream they are equal as bytes; of datagrams whole ones may be missing. -/

namespace NginxDtls

open Run

/-! ### The loop -/

section Loop

variable {conf : RelayConf} {d : Bool} {okRead : Relay → Recv → Prop} {okWrite : Relay → Send → Prop}

/-- Every read and every write that the loop makes is admitted by the state it meets. -/
def RoundsOk (conf : RelayConf) (d : Bool) (okRead : Relay → Recv → Prop) (okWrite : Relay → Send → Prop) :
    List (Recv × Send) → Relay → Prop
  | [], _ => True
  | (recv, send) :: rounds, r =>
    r.finalized = true ∨
      (okRead r recv ∧ ((processRead conf r d recv).2 = true →
        okWrite (processRead conf r d recv).1 send ∧
          RoundsOk conf d okRead okWrite rounds (processWrite conf (processRead conf r d recv).1 d send)))

instance decidableRoundsOk [∀ r recv, Decidable (okRead r recv)] [∀ r send, Decidable (okWrite r send)] :
    ∀ (rounds : List (Recv × Send)) (r : Relay), Decidable (RoundsOk conf d okRead okWrite rounds r)
  | [], _ => inferInstanceAs (Decidable True)
  | (recv, send) :: rounds, r =>
    have := decidableRoundsOk rounds (processWrite conf (processRead conf r d recv).1 d send)
    inferInstanceAs (Decidable (r.finalized = true ∨
      (okRead r recv ∧ ((processRead conf r d recv).2 = true →
        okWrite (processRead conf r d recv).1 send ∧
          RoundsOk conf d okRead okWrite rounds (processWrite conf (processRead conf r d recv).1 d send)))))

theorem roundsOk_of_forall (hread : ∀ r recv, okRead r recv) (hwrite : ∀ r send, okWrite r send)
    (rounds : List (Recv × Send)) (r : Relay) : RoundsOk conf d okRead okWrite rounds r := by
  induction rounds generalizing r with
  | nil => trivial
  | cons round rounds ih => exact Or.inr ⟨hread r _, fun _ => ⟨hwrite _ _, ih _⟩⟩

/-- What admitted reads and writes keep, the loop keeps. -/
theorem processLoop_invariant {I : Relay → Prop} (hread : ∀ r recv, I r → okRead r recv → I (processRead conf r d recv).1)
    (hwrite : ∀ r send, I r → okWrite r send → I (processWrite conf r d send)) {rounds : List (Recv × Send)} {r : Relay}
    (hr : I r) (hok : RoundsOk conf d okRead okWrite rounds r) : I (processLoop conf d rounds r) := by
  induction rounds generalizing r with
  | nil => exact hr
  | cons round rounds ih =>
    obtain ⟨recv, send⟩ := round
    rw [processLoop]
    by_cases hfin : r.finalized = true
    · rw [if_pos hfin]
      exact hr
    · rw [if_neg hfin]
      obtain ⟨hokRead, hnext⟩ := hok.resolve_left hfin
      have hr' := hread r recv hr hokRead
      dsimp only
      split
      · rename_i hmore
        obtain ⟨hokWrite, hrounds⟩ := hnext hmore
        exact ih (hwrite _ send hr' hokWrite) hrounds
      · exact hr'

end Loop

/-! ### Carrying -/

/-- How the two sides of a session are compared: `φ` is what counts of a list of messages. -/
structure Comparison (β : Type) (conf : RelayConf) (φ : List (List UInt8) → List β) (R : List β → List β → Prop) :
    Prop where
  append : ∀ a b, φ (a ++ b) = φ a ++ φ b
  empty : ∀ {a}, (∀ b ∈ a, b = []) → φ a = []
  refl : ∀ a, R a a
  right : ∀ {a b} c, R a b → R (a ++ c) (b ++ c)
  left : ∀ {a b} c, R a b → R (c ++ a) (c ++ b)
  drop : conf.type = .dgram → ∀ {a b c}, R (a ++ c) b → R a b

/-- What goes before the data of the client once the upstream is connected. -/
def Relay.lead (conf : RelayConf) (first : Option (List UInt8)) (r : Relay) (d : Bool) : List (List UInt8) :=
  if d = false ∧ r.connected = true then conf.proxyProtocol.toList ++ first.toList else []

def Relay.pending (r : Relay) (d : Bool) : List (List UInt8) := chainBytes r.mem r.bufs (r.flows d).queue

variable {β : Type} {φ : List (List UInt8) → List β} {R : List β → List β → Prop}

structure Relay.Carries (conf : RelayConf) (φ : List (List UInt8) → List β) (R : List β → List β → Prop)
    (first : Option (List UInt8)) (r : Relay) : Prop where
  sound : r.Sound
  buffer : (r.buffer.map fun b => b.bytes r.mem) = first
  header : ∀ bs, conf.proxyProtocol = some bs → r.mem.slice .header 0 bs.length = bs
  unread : ∀ b, r.buffer = some b → b.pos ≤ b.last ∧ b.temporary = true
  idle : r.connected = false → (r.flows false).sent = []
  flow : ∀ d, R (φ (r.flows d).sent ++ φ (r.pending d)) (φ (r.lead conf first d) ++ φ (r.flows d).received)

/-- What a send does with what counts of the chain. -/
def Relay.Preserves (r : Relay) (d : Bool) (φ : List (List UInt8) → List β) (bufs : ℕ → NgxBuf) (rest : List ℕ)
    (ss : List (List UInt8)) : Prop := φ ss ++ φ (chainBytes r.mem bufs rest) = φ (r.pending d)

namespace Relay.Carries

variable {conf : RelayConf} {first : Option (List UInt8)} {r r' : Relay} {d : Bool}

theorem finalize (h : r.Carries conf φ R first) : ({ r with finalized := true } : Relay).Carries conf φ R first :=
  ⟨h.sound.finalize, h.buffer, h.header, h.unread, h.idle, h.flow⟩

theorem written (C : Comparison β conf φ R) (h : r.Carries conf φ R first) {bufs : ℕ → NgxBuf} {done rest : List ℕ}
    {ss : List (List UInt8)} (hconn : (d || r.connected) = true) (hw : Written r r' d bufs done rest ss)
    (hK : r.Preserves d φ bufs rest ss) : r'.Carries conf φ R first := by
  have hwait : r.connected = false → d = true := fun hc => by simpa [hc] using hconn
  have hlead : ∀ d', r'.lead conf first d' = r.lead conf first d' := by
    intro d'
    rw [lead, lead, hw.connected]
  have hpending : r'.pending d = chainBytes r.mem bufs rest := by
    rw [pending, hw.queue_eq, hw.mem]
    exact chainBytes_congr (hw.rest_bufs h.sound)
  have hother : r'.pending (!d) = r.pending !d := by
    rw [pending, hw.other, hw.mem]
    exact chainBytes_congr (hw.other_bufs h.sound)
  refine ⟨hw.sound h.sound hwait, ?_, ?_, ?_, ?_, forall_flow d ?_ ?_⟩
  · rw [hw.buffer, hw.mem]
    exact h.buffer
  · rw [hw.mem]
    exact h.header
  · rw [hw.buffer]
    exact h.unread
  · intro hc
    rw [hw.connected] at hc
    have hd := hwait hc
    subst hd
    have hfalse := hw.other
    rw [Bool.not_true] at hfalse
    rw [hfalse]
    exact h.idle hc
  · have hflow := h.flow d
    rw [← hK, ← List.append_assoc, ← C.append] at hflow
    rw [hpending, hlead, hw.flow]
    exact hflow
  · rw [hother, hlead, hw.other]
    exact h.flow _

theorem write (C : Comparison β conf φ R) (h : r.Carries conf φ R first) {send : Send}
    (hsend : SendsWell conf r d send (r.Preserves d φ)) :
    (processWrite conf r d send).Carries conf φ R first := by
  have hK : (∀ i ∈ (r.flows d).queue, ngxBufSize (r.bufs i) = 0) → r.Preserves d φ r.bufs [] [] := by
    intro hsize
    have hpending : φ (r.pending d) = [] := by
      refine C.empty fun b hb => ?_
      obtain ⟨i, hi, rfl⟩ := List.mem_map.mp hb
      exact NgxBuf.bytes_eq_nil_of_size (hsize i hi)
    have hnil : φ [] = [] := C.empty (by simp)
    rw [Preserves, hpending, hnil]
    exact hnil
  obtain heq | heq | ⟨hconn, bufs, done, rest, ss, hw, hpres⟩ := processWrite_cases h.sound hsend hK
  · rw [heq]
    exact h
  · rw [heq]
    exact h.finalize
  · exact h.written C hconn hw hpres

theorem arrive (h : r.Carries conf φ R first) (d : Bool) (ds : List (List UInt8)) :
    (r.setFlow d fun f => { f with arrived := f.arrived ++ ds }).Carries conf φ R first := by
  have hother : (r.setFlow d fun f => { f with arrived := f.arrived ++ ds }).flows (!d) = r.flows !d := by
    simp [Relay.setFlow]
  have hself : (r.setFlow d fun f => { f with arrived := f.arrived ++ ds }).flows d =
      { r.flows d with arrived := (r.flows d).arrived ++ ds } := r.setFlow_flows d _
  refine ⟨h.sound.setFlow d rfl rfl rfl rfl, h.buffer, h.header, h.unread, ?_, forall_flow d ?_ ?_⟩
  · intro hc
    have hidle := h.idle hc
    cases d with
    | false =>
      rw [hself]
      exact hidle
    | true =>
      rw [Bool.not_true] at hother
      rw [hother]
      exact hidle
  · have hflow := h.flow d
    rw [pending, hself]
    exact hflow
  · have hflow := h.flow !d
    rw [pending, hother]
    exact hflow

theorem received (C : Comparison β conf φ R) (h : r.Carries conf φ R first) {bs : List UInt8} {eof : Bool} {i : ℕ}
    (hsound : r'.Sound) (hr : Received r r' d bs eof i) : r'.Carries conf φ R first := by
  have hlead : ∀ d', r'.lead conf first d' = r.lead conf first d' := by
    intro d'
    rw [lead, lead, hr.connected]
  refine ⟨hsound, ?_, ?_, ?_, ?_, forall_flow d ?_ ?_⟩
  · have hbuffer := h.buffer
    rw [hr.buffer, ← hbuffer]
    refine Option.map_congr fun b hb => ?_
    have harea := h.sound.buffer b hb
    rw [hr.mem, NgxBuf.bytes, NgxBuf.bytes, harea, Areas.slice_store_of_ne _ _ (by simp)]
  · intro bs' hbs
    rw [hr.mem, Areas.slice_store_of_ne _ _ (by simp)]
    exact h.header bs' hbs
  · rw [hr.buffer]
    exact h.unread
  · intro hc
    rw [hr.connected] at hc
    cases d with
    | false =>
      rw [hr.flow]
      exact h.idle hc
    | true =>
      have hother := hr.other
      rw [Bool.not_true] at hother
      rw [hother]
      exact h.idle hc
  · rw [hlead, pending, hr.bytes_queue h.sound, hr.flow]
    show R (φ (r.flows d).sent ++ φ (r.pending d ++ [bs])) (φ (r.lead conf first d) ++ φ ((r.flows d).received ++ [bs]))
    rw [C.append, C.append, ← List.append_assoc, ← List.append_assoc]
    exact C.right (φ [bs]) (h.flow d)
  · rw [hlead, pending, hr.bytes_other h.sound, hr.other]
    exact h.flow _

theorem read (C : Comparison β conf φ R) (h : r.Carries conf φ R first) (recv : Recv) :
    (processRead conf r d recv).1.Carries conf φ R first := by
  have harrive : (r.arrive conf d recv).Carries conf φ R first := by
    rw [arrive_eq]
    exact h.arrive d _
  obtain heq | ⟨bs, eof, heq, -⟩ := processRead_cases conf r d recv
  · rw [heq]
    exact harrive
  · rw [heq]
    obtain ⟨hsound, hreceived⟩ := queueReceived_received harrive.sound d bs eof
    exact harrive.received C hsound hreceived

end Relay.Carries

/-! ### The connection of the upstream -/

/-- Before the upstream is connected, `ls` has been put before what is pending for it. -/
structure Led (r r' : Relay) (ls : List (List UInt8)) : Prop where
  sound : r'.Sound
  waiting : r'.connected = false
  pending : r'.pending false = ls ++ r.pending false
  other : r'.pending true = r.pending true
  same : ((r'.flows false).sent, (r'.flows false).received) = ((r.flows false).sent, (r.flows false).received)
  flow : r'.flows true = r.flows true
  mem : r'.mem = r.mem
  buffer : r'.buffer = r.buffer

theorem Led.trans {r r₁ r₂ : Relay} {ls ls' : List (List UInt8)} (h : Led r r₁ ls) (h' : Led r₁ r₂ ls') :
    Led r r₂ (ls' ++ ls) := by
  refine ⟨h'.sound, h'.waiting, ?_, h'.other.trans h.other, h'.same.trans h.same, h'.flow.trans h.flow,
    h'.mem.trans h.mem, h'.buffer.trans h.buffer⟩
  rw [h'.pending, h.pending, List.append_assoc]

theorem Led.refl {r : Relay} (h : r.Sound) (hwait : r.connected = false) : Led r r [] :=
  ⟨h, hwait, rfl, rfl, rfl, rfl, rfl, rfl⟩

theorem Led.prepend {r : Relay} (h : r.Sound) (hwait : r.connected = false) {b : NgxBuf} (hb : b.Queued false 0)
    (hown : ∀ d, b.area ≠ .proxy d) : Led r (r.prepend b) [b.bytes r.mem] := by
  obtain ⟨hsound, hqueue, htrue, hfalse, hbuf, hmem, hkeep, hconn, hbuffer⟩ := prepend_sound h hwait hb hown
  refine ⟨hsound, hconn, ?_, ?_, ?_, htrue, hmem, hbuffer⟩
  · rw [Relay.pending, hqueue, hmem]
    show ((r.prepend b).bufs _).bytes r.mem :: chainBytes r.mem (r.prepend b).bufs (r.flows false).queue = _
    rw [hbuf, chainBytes_congr (hkeep false)]
    rfl
  · rw [Relay.pending, htrue, hmem]
    exact chainBytes_congr (hkeep true)
  · rw [hfalse]

/-- The buffer for what the client sent before the proxy came in, with data or as a flush. -/
theorem NgxBuf.queued_preread {b : NgxBuf} (harea : b.area = .preread) (hle : b.pos ≤ b.last) :
    ({ b with tag := true, temporary := b.pos ≠ b.last, flush := true } : NgxBuf).Queued false 0 := by
  refine ⟨rfl, ?_, hle, by simp [harea], by simp [harea]⟩
  by_cases heq : b.pos = b.last
  · right
    simp [ngxBufSpecial, heq]
  · left
    simp only [ngxBufSize, ne_eq, heq, not_false_iff, decide_true, if_true]
    omega

namespace Relay.Carries

variable {conf : RelayConf} {first : Option (List UInt8)} {r : Relay}

theorem addPreread (h : r.Carries conf φ R first) (hwait : r.connected = false) :
    Led r r.addPreread first.toList := by
  have hbuffer := h.buffer
  unfold Relay.addPreread
  split
  · rename_i hnone
    rw [hnone] at hbuffer
    rw [← hbuffer]
    exact Led.refl h.sound hwait
  · rename_i b hsome
    rw [hsome] at hbuffer
    obtain ⟨hle, htemp⟩ := h.unread b hsome
    have harea := h.sound.buffer b hsome
    rw [if_pos hle]
    have hbytes : ({ b with tag := true, temporary := b.pos ≠ b.last, flush := true } : NgxBuf).bytes r.mem =
        b.bytes r.mem := by
      by_cases heq : b.pos = b.last
      · simp [NgxBuf.bytes, Areas.slice, heq, htemp]
      · simp [NgxBuf.bytes, heq, htemp]
    have hqueued := NgxBuf.queued_preread harea hle
    have hled := Led.prepend h.sound hwait hqueued (by simp [harea])
    rw [hbytes] at hled
    rw [← hbuffer]
    exact hled

theorem addHeader (h : r.Carries conf φ R first) {r₁ : Relay} {ls : List (List UInt8)} (hled : Led r r₁ ls) :
    Led r (r₁.addHeader conf) (conf.proxyProtocol.toList ++ ls) := by
  unfold Relay.addHeader
  split
  · rename_i hnone
    rw [hnone]
    exact hled
  · rename_i bs hsome
    have hne : bs ≠ [] := fun heq => conf.header_ne (heq ▸ hsome)
    have hqueued : ({ area := .header, last := bs.length, temporary := true, tag := true } : NgxBuf).Queued false 0 := by
      refine ⟨rfl, Or.inl ?_, Nat.zero_le _, by simp, by simp⟩
      simpa [ngxBufSize] using hne
    have hbytes : ({ area := .header, last := bs.length, temporary := true, tag := true } : NgxBuf).bytes r₁.mem = bs := by
      rw [NgxBuf.bytes, if_pos rfl, hled.mem]
      exact h.header bs hsome
    have hstep := Led.prepend hled.sound hled.waiting hqueued (by simp)
    rw [hbytes] at hstep
    rw [hsome]
    exact hled.trans hstep

theorem connect (C : Comparison β conf φ R) (h : r.Carries conf φ R first) (hwait : r.connected = false) :
    ({ (r.addPreread.addHeader conf) with connected := true } : Relay).Carries conf φ R first := by
  have hled := h.addHeader (h.addPreread hwait)
  have hs := hled.sound
  refine ⟨⟨hs.freeNodup, hs.freeBelow, hs.nodup, hs.below, hs.notFree, hs.apart, hs.busy, hs.queued, hs.buffer,
    fun hc => absurd hc (by simp)⟩, ?_, ?_, ?_, fun hc => absurd hc (by simp), forall_flow false ?_ ?_⟩
  · show (Option.map _ (r.addPreread.addHeader conf).buffer) = first
    rw [hled.buffer, hled.mem]
    exact h.buffer
  · show ∀ bs, conf.proxyProtocol = some bs → (r.addPreread.addHeader conf).mem.slice .header 0 bs.length = bs
    rw [hled.mem]
    exact h.header
  · show ∀ b, (r.addPreread.addHeader conf).buffer = some b → _
    rw [hled.buffer]
    exact h.unread
  · have hflow := h.flow false
    have hlead : r.lead conf first false = [] := by simp [lead, hwait]
    obtain ⟨hsent, hreceived⟩ := Prod.mk.inj hled.same
    have hnil : φ [] = [] := C.empty (by simp)
    rw [h.idle hwait, hlead, hnil, List.nil_append, List.nil_append] at hflow
    show R (φ ((r.addPreread.addHeader conf).flows false).sent ++ φ ((r.addPreread.addHeader conf).pending false))
      (φ (conf.proxyProtocol.toList ++ first.toList) ++ φ ((r.addPreread.addHeader conf).flows false).received)
    rw [hsent, hreceived, hled.pending, h.idle hwait, hnil, List.nil_append, C.append]
    exact C.left _ hflow
  · have hflow := h.flow true
    show R (φ ((r.addPreread.addHeader conf).flows true).sent ++ φ ((r.addPreread.addHeader conf).pending true))
      (φ [] ++ φ ((r.addPreread.addHeader conf).flows true).received)
    rw [hled.flow, hled.other]
    exact hflow

/-- Giving up an upstream drops the datagrams that waited for it. -/
theorem nextUpstream (C : Comparison β conf φ R) (h : r.Carries conf φ R first) (hdgram : conf.type = .dgram)
    (hwait : r.connected = false) : (r.setFlow false fun f => { f with out := [] }).Carries conf φ R first := by
  have hfalse : (r.setFlow false fun f => { f with out := [] }).flows false = { r.flows false with out := [] } :=
    r.setFlow_flows false _
  have htrue : (r.setFlow false fun f => { f with out := [] }).flows true = r.flows true :=
    r.setFlow_flows_of_ne (by simp) _
  have hnil : φ [] = [] := C.empty (by simp)
  refine ⟨h.sound.dropOut hwait, h.buffer, h.header, h.unread, ?_, forall_flow false ?_ ?_⟩
  · intro hc
    rw [hfalse]
    exact h.idle hc
  · have hflow := C.drop hdgram (h.flow false)
    have hpending : (r.setFlow false fun f => { f with out := [] }).pending false = [] := by
      rw [pending, hfalse]
      simp [Flow.queue, h.sound.waiting hwait, chainBytes]
    rw [hpending, hnil, List.append_nil, hfalse]
    exact hflow
  · rw [Bool.not_false, pending, htrue]
    exact h.flow true

end Relay.Carries

/-! ### Events -/

section Events

variable {conf : RelayConf} {okRead : Bool → Relay → Recv → Prop} {okWrite : Bool → Relay → Send → Prop}

/-- Every read and write of a call of `ngx_stream_proxy_process` is admitted. -/
def ProcessOk (conf : RelayConf) (okRead : Bool → Relay → Recv → Prop) (okWrite : Bool → Relay → Send → Prop)
    (r : Relay) (d doWrite : Bool) (send : Send) (rounds : List (Recv × Send)) : Prop :=
  (doWrite = true → okWrite d r send) ∧
    RoundsOk conf d (okRead d) (okWrite d) rounds (if doWrite then processWrite conf r d send else r)

/-- The session when the upstream has connected, before anything is sent. -/
def Relay.connect (conf : RelayConf) (r : Relay) : Relay := { (r.addPreread.addHeader conf) with connected := true }

/-- Every read and write of a step is admitted. -/
def EventOk (conf : RelayConf) (okRead : Bool → Relay → Recv → Prop) (okWrite : Bool → Relay → Send → Prop)
    (r : Relay) : RelayEvent → Prop
  | .process d doWrite send rounds =>
    r.finalized = false → (d = true → r.connected = true) → ProcessOk conf okRead okWrite r d doWrite send rounds
  | .connect send rounds =>
    r.finalized = false → r.connected = false → ProcessOk conf okRead okWrite (r.connect conf) false true send rounds
  | _ => True

instance [∀ d r recv, Decidable (okRead d r recv)] [∀ d r send, Decidable (okWrite d r send)] (r : Relay)
    (d doWrite : Bool) (send : Send) (rounds : List (Recv × Send)) :
    Decidable (ProcessOk conf okRead okWrite r d doWrite send rounds) := inferInstanceAs (Decidable (_ ∧ _))

instance [∀ d r recv, Decidable (okRead d r recv)] [∀ d r send, Decidable (okWrite d r send)] (r : Relay) :
    ∀ e, Decidable (EventOk conf okRead okWrite r e)
  | .process d doWrite send rounds => inferInstanceAs (Decidable (_ → _ → ProcessOk conf okRead okWrite r d doWrite send rounds))
  | .connect send rounds =>
    inferInstanceAs (Decidable (_ → _ → ProcessOk conf okRead okWrite (r.connect conf) false true send rounds))
  | .nextUpstream => inferInstanceAs (Decidable True)
  | .finalize => inferInstanceAs (Decidable True)

theorem process_invariant {I : Relay → Prop}
    (hread : ∀ d r recv, I r → okRead d r recv → I (processRead conf r d recv).1)
    (hwrite : ∀ d r send, I r → okWrite d r send → I (processWrite conf r d send)) {r : Relay} {d doWrite : Bool}
    {send : Send} {rounds : List (Recv × Send)} (hr : I r) (hok : ProcessOk conf okRead okWrite r d doWrite send rounds) :
    I (ngxStreamProxyProcess conf r d doWrite send rounds) := by
  refine processLoop_invariant (hread d) (hwrite d) ?_ hok.2
  split
  · rename_i hdo
    exact hwrite d r send hr (hok.1 hdo)
  · exact hr

/-- What admitted reads and writes, the connection of the upstream and its failure keep, every admitted step keeps. -/
theorem step_invariant {I : Relay → Prop}
    (hread : ∀ d r recv, I r → okRead d r recv → I (processRead conf r d recv).1)
    (hwrite : ∀ d r send, I r → okWrite d r send → I (processWrite conf r d send))
    (hconnect : ∀ r, I r → r.connected = false → I (r.connect conf))
    (hnext : ∀ r, I r → r.connected = false → conf.type = .dgram → I (r.setFlow false fun f => { f with out := [] }))
    (hfinal : ∀ r, I r → I { r with finalized := true }) (r : Relay) (e : RelayEvent) (hr : I r)
    (hok : EventOk conf okRead okWrite r e) : I (r.step conf e) := by
  unfold Relay.step
  split
  · exact hr
  · rename_i hfin
    have hlive : r.finalized = false := by simpa using hfin
    cases e with
    | process d doWrite send rounds =>
      dsimp only
      split
      · exact hr
      · rename_i hconn
        refine process_invariant hread hwrite hr (hok hlive fun hd => ?_)
        by_contra hc
        exact hconn (by simp [hd, hc])
    | connect send rounds =>
      dsimp only
      split
      · exact hr
      · rename_i hconn
        have hwait : r.connected = false := by simpa using hconn
        exact process_invariant hread hwrite (hconnect r hr hwait) (hok hlive hwait)
    | nextUpstream =>
      dsimp only
      split
      · exact hr
      · rename_i hskip
        simp only [Bool.or_eq_true, decide_eq_true_eq, not_or, Bool.not_eq_true] at hskip
        refine hnext r hr hskip.1 ?_
        cases htype : conf.type with
        | stream => exact absurd htype hskip.2
        | dgram => rfl
    | finalize => exact hfinal r hr

end Events

theorem Relay.start_sound (conf : RelayConf) (buffer : Option (List UInt8 × ℕ)) : (Relay.start conf buffer).Sound := by
  refine ⟨List.nodup_nil, by simp [Relay.start], ?_, ?_, ?_, ?_, fun _ => rfl, ?_, ?_, fun _ => rfl⟩
  · intro d
    exact List.nodup_nil
  · intro d i hi
    simp [Relay.start, Flow.queue] at hi
  · intro d i hi
    simp [Relay.start, Flow.queue] at hi
  · intro d i hi
    simp [Relay.start, Flow.queue] at hi
  · intro d i hi
    simp [Relay.start, Flow.queue] at hi
  · intro b hb
    obtain ⟨b', -, rfl⟩ := Option.map_eq_some_iff.mp hb
    rfl

/-- The start of a session carries nothing yet. -/
theorem Relay.start_carries {conf : RelayConf} (C : Comparison β conf φ R) (buffer : Option (List UInt8 × ℕ))
    (hpos : ∀ b, buffer = some b → b.2 ≤ b.1.length) :
    (Relay.start conf buffer).Carries conf φ R (buffer.map fun b => b.1.drop b.2) := by
  have hnil : φ [] = [] := C.empty (by simp)
  refine ⟨Relay.start_sound conf buffer, ?_, ?_, ?_, ?_, ?_⟩
  · cases buffer with
    | none => rfl
    | some b =>
      refine congrArg some ?_
      show (Relay.start conf (some b)).mem.slice .preread b.2 b.1.length = b.1.drop b.2
      exact Areas.slice_of_list _ _ (fun _ => rfl) b.2
  · intro bs hbs
    refine Areas.slice_of_list _ _ (fun i => ?_) 0
    show (conf.proxyProtocol.getD [])[i]?.getD 0 = _
    rw [hbs]
    rfl
  · intro b hb
    obtain ⟨b', hb', rfl⟩ := Option.map_eq_some_iff.mp hb
    exact ⟨hpos b' hb', rfl⟩
  · intro hc
    rfl
  · intro d
    have hlead : (Relay.start conf buffer).lead conf (buffer.map fun b => b.1.drop b.2) d = [] := by
      simp [lead, Relay.start]
    rw [hlead]
    exact C.refl _

end NginxDtls
