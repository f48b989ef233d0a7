import NginxDtls.SslSend

/-! Datagram boundaries over DTLS. A buffer that is left unsent by one call is filled up by the next one, so
a datagram that arrives meanwhile is merged into the record of the one before. As long as no call copies
behind unsent bytes, and no datagram crosses the limit of its call, every datagram is written by one
call of `ngx_ssl_write`. -/

namespace NginxDtls

open Run

/-! ### Runs -/

/-- A call: the datagrams that are new since the last one, and the outcomes it meets. -/
structure SslCall where
  datagrams : List (List UInt8)
  limit : Nat
  alloc : Bool
  outcomes : List SslWrite

/-- The connection, the returned remainder, and everything that went in and out so far. -/
structure SslState where
  conn : SslConnection
  remaining : List ChainBuf := []
  error : Bool := false
  inputs : List (List UInt8) := []
  writes : List (List UInt8) := []

/-- The next call gets the remainder of the last one in front of the new datagrams. After an error there
is none. -/
def SslState.step (st : SslState) (call : SslCall) : SslState :=
  if st.error then st
  else
    let chain := st.remaining ++ call.datagrams.map ChainBuf.datagram
    let sent := ngxSslSendChain st.conn call.alloc chain call.limit call.outcomes
    { conn := sent.conn
      remaining := sent.chain.getD chain
      error := sent.chain.isNone
      inputs := st.inputs ++ call.datagrams
      writes := st.writes ++ sent.writes }

/-- A datagram connection with a buffer, before its first call. -/
def SslState.start (bufferSize pagesize : Nat) : SslState :=
  { conn := { dgram := true, buffer := true, bufferSize, pagesize } }

/-- The calls in question: datagrams that are not empty and fit the buffer, and writes that take all or
nothing. -/
def SslCall.Valid (bufferSize : Nat) (call : SslCall) : Prop :=
  (∀ d ∈ call.datagrams, d ≠ [] ∧ d.length ≤ bufferSize) ∧
    ∀ o ∈ call.outcomes, o = .whole ∨ o = .again

/-- The unsent bytes of the buffer. -/
def SslState.pending (st : SslState) : List UInt8 := (st.conn.buf.getD {}).pending

/-- One payload for each datagram: those written, the one in the buffer, and those in the chain. -/
def SslState.DatagramsKept (st : SslState) : Prop :=
  st.writes ++ (if st.pending = [] then [] else [st.pending]) ++ st.remaining.map (·.data) = st.inputs

/-! ### The condition -/

/-- No datagram crosses the limit. -/
def FitsLimit (limit : Nat) : Nat → List (List UInt8) → Prop
  | _, [] => True
  | send, d :: ds => limit ≤ send ∨ send + d.length ≤ limit ∧ FitsLimit limit (send + d.length) ds

instance (limit : Nat) : ∀ (send : Nat) (ds : List (List UInt8)), Decidable (FitsLimit limit send ds)
  | _, [] => isTrue trivial
  | send, d :: ds =>
    have := instDecidableFitsLimit limit (send + d.length) ds
    inferInstanceAs (Decidable (limit ≤ send ∨ send + d.length ≤ limit ∧ FitsLimit limit _ ds))

/-- The call does not copy behind unsent bytes: there are none, there is nothing to copy, or there is no
room for it. And no datagram crosses its limit. -/
def SslState.Separate (st : SslState) (call : SslCall) : Prop :=
  let chain := st.remaining.map (·.data) ++ call.datagrams
  let limit := sslLimit st.conn.pagesize call.limit
  (st.pending = [] ∨ chain = [] ∨ st.conn.bufferSize ≤ st.pending.length ∨ limit ≤ st.pending.length) ∧
    FitsLimit limit st.pending.length chain

instance (st : SslState) (call : SslCall) : Decidable (st.Separate call) :=
  inferInstanceAs (Decidable (_ ∧ _))

/-! ### One call -/

/-- A chain of datagrams that fit the buffer. -/
def DatagramChain (bufferSize : Nat) (chain : List ChainBuf) : Prop :=
  ∀ b ∈ chain, b = ChainBuf.datagram b.data ∧ b.data ≠ [] ∧ b.data.length ≤ bufferSize

/-- What a call has done with its datagrams. -/
structure SslSent.Keeps (c : SslConnection) (ds : List (List UInt8)) (sent : SslSent) : Prop where
  conn : ∃ buf buffered, sent.conn = { c with buf := some buf, buffered := buffered } ∧ buf.pos = 0 ∧
    (buf.data ≠ [] → buf.flush = true) ∧
    ∃ rest, sent.chain = some rest ∧ DatagramChain c.bufferSize rest ∧
      sent.writes ++ (if buf.data = [] then [] else [buf.data]) ++ rest.map (·.data) = ds

section Loop

variable {c : SslConnection} {limit : Nat}

theorem sslFinish_keeps {rest : List ChainBuf} (buf : SslBuf) {flush : Bool} (hpos : buf.pos = 0)
    (hflush : buf.data ≠ [] → flush = true) (hrest : DatagramChain c.bufferSize rest) :
    (sslFinish c rest buf flush).Keeps c ((if buf.data = [] then [] else [buf.data]) ++ rest.map (·.data)) :=
  ⟨_, _, rfl, hpos, hflush, rest, rfl, hrest, rfl⟩

theorem sslFinish_empty {rest : List ChainBuf} (f flush : Bool)
    (hrest : DatagramChain c.bufferSize rest) :
    (sslFinish c rest { flush := f } flush).Keeps c (rest.map (·.data)) :=
  sslFinish_keeps { flush := f } rfl (fun h => absurd rfl h) hrest

/-- A payload in front. -/
theorem SslSent.Keeps.cons {sent : SslSent} {ds : List (List UInt8)} (h : sent.Keeps c ds)
    (d : List UInt8) : SslSent.Keeps c (d :: ds) { sent with writes := d :: sent.writes } := by
  obtain ⟨buf, buffered, hconn, hpos, hflush, rest, hchain, hrest, heq⟩ := h.conn
  refine ⟨buf, buffered, hconn, hpos, hflush, rest, hchain, hrest, ?_⟩
  rw [← heq]
  rfl

theorem DatagramChain.tail {bufferSize : Nat} {b : ChainBuf} {rest : List ChainBuf}
    (h : DatagramChain bufferSize (b :: rest)) : DatagramChain bufferSize rest :=
  fun x hx => h x (List.mem_cons_of_mem b hx)

/-- Nothing is copied behind a full buffer or the limit. -/
theorem sslCopy_stopped {chain : List ChainBuf} {buf : SslBuf} {send : Nat} {flush : Bool}
    (h : chain = [] ∨ c.bufferSize ≤ buf.data.length ∨ limit ≤ send) :
    sslCopy c limit chain buf send flush = ⟨chain, buf, send, flush⟩ := by
  cases chain with
  | nil => rfl
  | cons b rest =>
      have hstop : ¬(buf.data.length < c.bufferSize ∧ send < limit) := by
        rcases h with h | h | h
        · exact absurd h (List.cons_ne_nil b rest)
        · omega
        · omega
      rw [sslCopy, if_neg hstop]

/-- An empty buffer takes the first datagram, whole and alone. -/
theorem sslCopy_datagram (hdgram : c.dgram = true) {b : ChainBuf} (rest : List ChainBuf)
    (hb : b = ChainBuf.datagram b.data) (hne : b.data ≠ []) (hle : b.data.length ≤ c.bufferSize)
    {send : Nat} (hsend : send < limit) (hfit : send + b.data.length ≤ limit) (flush f : Bool) :
    sslCopy c limit (b :: rest) { flush := f } send flush =
      ⟨rest, { data := b.data, flush := f }, send + b.data.length, true⟩ := by
  have hpos : 0 < b.data.length := List.length_pos_of_ne_nil hne
  have hroom : 0 < c.bufferSize := by omega
  have hspecial : b.special = false := by
    rw [hb]
    rfl
  have hflag : b.flush = true := by
    rw [hb]
    rfl
  have hsize : min (min b.data.length (c.bufferSize - 0)) (limit - send) = b.data.length := by
    omega
  simp only [sslCopy, hroom, hsend, hspecial, hflag, List.length_nil, hsize, hdgram, and_self, if_true,
    Bool.or_true, List.take_length, List.nil_append]
  simp

/-- The rest of a round that has a datagram in the buffer: it is written whole, or it stays. -/
theorem sslLoop_write {st : SslLoop} {rest : List ChainBuf} {d : List UInt8} {f : Bool} {send : Nat}
    (hcopy : sslCopy c limit st.chain st.buf st.send st.flush = ⟨rest, { data := d, flush := f }, send, true⟩)
    (hne : d ≠ []) (hrest : DatagramChain c.bufferSize rest) (outcomes : List SslWrite)
    (houts : ∀ o ∈ outcomes, o = .whole ∨ o = .again)
    (hnext : ∀ tail, outcomes = .whole :: tail → rest ≠ [] → send < limit →
      (sslLoop c limit tail ⟨rest, { flush := f }, send, false⟩).Keeps c (rest.map (·.data))) :
    (sslLoop c limit outcomes st).Keeps c (d :: rest.map (·.data)) := by
  have hpos : d.length ≠ 0 := fun h => hne (List.eq_nil_of_length_eq_zero h)
  have hstay := sslFinish_keeps (c := c) { data := d, flush := f } rfl (fun _ => rfl) hrest
  simp only [if_neg hne, List.singleton_append] at hstay
  unfold sslLoop
  simp only [hcopy, Bool.not_true, Bool.false_eq_true, false_and, if_false, Nat.sub_zero, if_neg hpos]
  match outcomes with
  | [] => exact hstay
  | .again :: _ => exact hstay
  | .error :: _ => simpa using houts .error (by simp)
  | .part n :: _ => simpa using houts (.part n) (by simp)
  | .whole :: tail =>
      dsimp only [SslBuf.pending]
      rw [List.drop_zero]
      by_cases hend : rest = [] ∨ limit ≤ send
      · rw [if_pos hend]
        exact (sslFinish_empty f false hrest).cons d
      · rw [if_neg hend]
        rw [not_or, not_le] at hend
        exact (hnext tail rfl hend.1 hend.2).cons d

/-- A round that copies nothing into an empty buffer is the last one. -/
theorem sslLoop_idle {st : SslLoop} {rest : List ChainBuf} {f flush : Bool} {send : Nat}
    (hcopy : sslCopy c limit st.chain st.buf st.send st.flush = ⟨rest, { flush := f }, send, flush⟩)
    (hrest : DatagramChain c.bufferSize rest) (outcomes : List SslWrite) :
    (sslLoop c limit outcomes st).Keeps c (rest.map (·.data)) := by
  have hsize : ([] : List UInt8).length - 0 = 0 := rfl
  unfold sslLoop
  simp only [hcopy, if_pos hsize]
  split_ifs with hbreak
  · exact sslFinish_empty f flush hrest
  · exact sslFinish_empty f false hrest

/-- A round that starts with an empty buffer. -/
theorem sslLoop_round (hdgram : c.dgram = true) {outcomes : List SslWrite}
    (houts : ∀ o ∈ outcomes, o = .whole ∨ o = .again) {chain : List ChainBuf}
    (hchain : DatagramChain c.bufferSize chain) {send : Nat} {flush f : Bool}
    (hfit : FitsLimit limit send (chain.map (·.data)))
    (hnext : ∀ tail rest send, outcomes = .whole :: tail → DatagramChain c.bufferSize rest →
      FitsLimit limit send (rest.map (·.data)) →
      (sslLoop c limit tail ⟨rest, { flush := f }, send, false⟩).Keeps c (rest.map (·.data))) :
    (sslLoop c limit outcomes ⟨chain, { flush := f }, send, flush⟩).Keeps c (chain.map (·.data)) := by
  cases chain with
  | nil => exact sslLoop_idle (sslCopy_stopped (.inl rfl)) hchain _
  | cons b rest =>
      by_cases hlimit : limit ≤ send
      · exact sslLoop_idle (sslCopy_stopped (.inr (.inr hlimit))) hchain _
      · obtain ⟨hb, hne, hle⟩ := hchain b List.mem_cons_self
        obtain ⟨hbfit, hrest⟩ := hfit.resolve_left hlimit
        have hcopy := sslCopy_datagram hdgram rest hb hne hle (not_le.mp hlimit) hbfit flush f
        apply sslLoop_write hcopy hne hchain.tail _ houts
        intro tail htail _ _
        exact hnext tail rest _ htail hchain.tail hrest

/-- With an empty buffer every round writes one datagram. The induction is on the outcomes, one of which
every round that goes on uses up. -/
theorem sslLoop_empty (hdgram : c.dgram = true) (outcomes : List SslWrite)
    (houts : ∀ o ∈ outcomes, o = .whole ∨ o = .again) {chain : List ChainBuf}
    (hchain : DatagramChain c.bufferSize chain) {send : Nat} {flush f : Bool}
    (hfit : FitsLimit limit send (chain.map (·.data))) :
    (sslLoop c limit outcomes ⟨chain, { flush := f }, send, flush⟩).Keeps c (chain.map (·.data)) := by
  induction outcomes generalizing chain send flush f with
  | nil =>
      apply sslLoop_round hdgram houts hchain hfit
      intro tail rest send htail
      exact absurd htail.symm (List.cons_ne_nil _ tail)
  | cons o outcomes ih =>
      apply sslLoop_round hdgram houts hchain hfit
      intro tail rest send htail hrest hfit'
      obtain ⟨-, rfl⟩ := List.cons.inj htail
      exact ih (fun o ho => houts o (List.mem_cons_of_mem _ ho)) hrest hfit'

/-- With a datagram in the buffer the first round writes it, if nothing can be copied behind it. -/
theorem sslLoop_pending (hdgram : c.dgram = true) {outcomes : List SslWrite}
    (houts : ∀ o ∈ outcomes, o = .whole ∨ o = .again) {chain : List ChainBuf}
    (hchain : DatagramChain c.bufferSize chain) {d : List UInt8} {f : Bool} (hne : d ≠ [])
    (hstop : chain = [] ∨ c.bufferSize ≤ d.length ∨ limit ≤ d.length)
    (hfit : FitsLimit limit d.length (chain.map (·.data))) :
    (sslLoop c limit outcomes ⟨chain, { data := d, flush := f }, d.length, true⟩).Keeps c
      (d :: chain.map (·.data)) := by
  apply sslLoop_write (sslCopy_stopped hstop) hne hchain outcomes houts
  intro tail htail _ _
  have houts' : ∀ o ∈ tail, o = .whole ∨ o = .again := fun o ho =>
    houts o (by rw [htail]; exact List.mem_cons_of_mem _ ho)
  exact sslLoop_empty hdgram tail houts' hchain hfit

end Loop

/-! ### Whole runs -/

/-- A connection between two calls: what waits in the buffer has its flush flag. -/
structure SslConnection.Ready (c : SslConnection) (data : List UInt8) : Prop where
  dgram : c.dgram = true
  buffer : c.buffer = true
  pos : (c.buf.getD {}).pos = 0
  holds : (c.buf.getD {}).data = data
  flush : data ≠ [] → (c.buf.getD {}).flush = true

/-- A call either fails to allocate its buffer or keeps every datagram. -/
theorem ngxSslSendChain_keeps {c : SslConnection} {data : List UInt8} (h : c.Ready data) {alloc : Bool}
    (halloc : ¬(c.buf = none ∧ !alloc)) {outcomes : List SslWrite}
    (houts : ∀ o ∈ outcomes, o = .whole ∨ o = .again) {chain : List ChainBuf}
    (hchain : DatagramChain c.bufferSize chain) {limit : Nat}
    (hstop : data = [] ∨ chain = [] ∨ c.bufferSize ≤ data.length ∨
      sslLimit c.pagesize limit ≤ data.length)
    (hfit : FitsLimit (sslLimit c.pagesize limit) data.length (chain.map (·.data))) :
    (ngxSslSendChain c alloc chain limit outcomes).Keeps c
      ((if data = [] then [] else [data]) ++ chain.map (·.data)) := by
  obtain ⟨f, hbuf⟩ : ∃ f, c.buf.getD {} = { data := data, flush := f } := by
    have hpos := h.pos
    have hholds := h.holds
    cases hbuf : c.buf.getD {} with
    | mk data' pos' f =>
        rw [hbuf] at hpos hholds
        exact ⟨f, by rw [← hholds, ← hpos]⟩
  simp only [ngxSslSendChain, h.buffer, Bool.not_true, Bool.false_eq_true, if_false, if_neg halloc, hbuf,
    Nat.sub_zero]
  by_cases hdata : data = []
  · subst hdata
    rw [if_pos rfl]
    exact sslLoop_empty h.dgram outcomes houts hchain hfit
  · have hflush : (if chain = [] then true else f) = true := by
      have hf := h.flush hdata
      rw [hbuf] at hf
      split_ifs
      · rfl
      · exact hf
    rw [if_neg hdata, hflush]
    exact sslLoop_pending h.dgram houts hchain hdata (hstop.resolve_left hdata) hfit

/-- What holds between the calls of a run. -/
structure SslState.Inv (bufferSize : Nat) (st : SslState) : Prop where
  ready : st.conn.Ready st.pending
  size : st.conn.bufferSize = bufferSize
  chain : DatagramChain bufferSize st.remaining
  kept : st.DatagramsKept

theorem SslState.Inv.step {bufferSize : Nat} {st : SslState} {call : SslCall}
    (h : st.Inv bufferSize) (hvalid : call.Valid bufferSize) (hsep : st.Separate call) :
    (st.step call).Inv bufferSize := by
  rw [SslState.step]
  split_ifs with herror
  · exact h
  · have hkept := h.kept
    have hchain : DatagramChain st.conn.bufferSize (st.remaining ++ call.datagrams.map ChainBuf.datagram) := by
      intro b hb
      rw [h.size]
      rcases List.mem_append.mp hb with hb | hb
      · exact h.chain b hb
      · obtain ⟨d, hd, rfl⟩ := List.mem_map.mp hb
        exact ⟨rfl, hvalid.1 d hd⟩
    have hdata : (st.remaining ++ call.datagrams.map ChainBuf.datagram).map (·.data) =
        st.remaining.map (·.data) ++ call.datagrams := by
      rw [List.map_append, List.map_map]
      congr 1
      exact List.map_id _
    by_cases halloc : st.conn.buf = none ∧ !call.alloc
    · have hfail : ngxSslSendChain st.conn call.alloc (st.remaining ++ call.datagrams.map ChainBuf.datagram)
          call.limit call.outcomes = { conn := st.conn, chain := none, writes := [] } := by
        simp only [ngxSslSendChain, h.ready.buffer, Bool.not_true, Bool.false_eq_true, if_false,
          if_pos halloc]
      simp only [hfail]
      refine ⟨h.ready, h.size, h.size ▸ hchain, ?_⟩
      rw [SslState.DatagramsKept] at hkept ⊢
      simp only [Option.getD_none, List.append_nil, hdata]
      rw [← hkept, ← List.append_assoc]
      rfl
    · obtain ⟨hstop, hfit⟩ := hsep
      have hstop' : st.pending = [] ∨ st.remaining ++ call.datagrams.map ChainBuf.datagram = [] ∨
          st.conn.bufferSize ≤ st.pending.length ∨
          sslLimit st.conn.pagesize call.limit ≤ st.pending.length := by
        rw [← hdata, List.map_eq_nil_iff] at hstop
        exact hstop
      have hkeeps := ngxSslSendChain_keeps h.ready halloc hvalid.2 hchain hstop' (by rw [hdata]; exact hfit)
      obtain ⟨buf, buffered, hconn, hpos, hflush, rest, hrest, hdgrams, hsent⟩ := hkeeps.conn
      have hpend : buf.pending = buf.data := by rw [SslBuf.pending, hpos, List.drop_zero]
      refine ⟨?_, ?_, ?_, ?_⟩
      · simp only [hconn, SslState.pending, Option.getD_some, hpend]
        exact ⟨h.ready.dgram, h.ready.buffer, hpos, rfl, hflush⟩
      · simp only [hconn, h.size]
      · simp only [hrest, Option.getD_some]
        exact h.size ▸ hdgrams
      · rw [SslState.DatagramsKept] at hkept ⊢
        simp only [SslState.pending, hconn, hrest, Option.getD_some, hpend]
        rw [List.append_assoc, List.append_assoc, ← List.append_assoc _ _ (rest.map _), hsent, hdata,
          ← hkept]
        simp only [List.append_assoc]

theorem SslState.start_inv (bufferSize pagesize : Nat) :
    (SslState.start bufferSize pagesize).Inv bufferSize :=
  ⟨⟨rfl, rfl, rfl, rfl, fun h => absurd rfl h⟩, rfl, fun _ hb => absurd hb List.not_mem_nil, rfl⟩

/-- In every run of a datagram connection in which no call copies behind unsent bytes and no datagram
crosses a limit, every datagram is written by a call of its own. -/
theorem datagramsKept_of_separate (bufferSize pagesize : Nat) (calls : List SslCall)
    (hcalls : Along SslState.step (fun st call => call.Valid bufferSize ∧ st.Separate call)
      (SslState.start bufferSize pagesize) calls) :
    (run SslState.step (SslState.start bufferSize pagesize) calls).DatagramsKept := by
  have hinv : (run SslState.step (SslState.start bufferSize pagesize) calls).Inv bufferSize :=
    run_invariant (fun _ _ hst hok => hst.step hok.1 hok.2) (SslState.start_inv bufferSize pagesize) hcalls
  exact hinv.kept

/-- Two datagrams at once, the second one refused and written later. -/
theorem datagramsKept_retry : (run SslState.step (SslState.start 16384 4096)
    [⟨[[1], [2]], 0, true, [.whole, .again]⟩, ⟨[], 0, true, [.whole]⟩]).DatagramsKept := by
  apply datagramsKept_of_separate
  refine ⟨⟨⟨by decide, by decide⟩, by decide⟩, ⟨⟨by decide, by decide⟩, by decide⟩, trivial⟩

/-- The first datagram is refused; the second one arrives before it is written again. One record carries
both. -/
theorem datagrams_merged : ¬∀ calls : List SslCall, (∀ call ∈ calls, call.Valid 16384) →
    (run SslState.step (SslState.start 16384 4096) calls).DatagramsKept := by
  intro h
  have hkept := h [⟨[[1]], 0, true, [.again]⟩, ⟨[[2]], 0, true, [.whole]⟩] (by
    intro call hcall
    simp only [List.mem_cons, List.not_mem_nil, or_false] at hcall
    rcases hcall with rfl | rfl
    · exact ⟨by decide, by decide⟩
    · exact ⟨by decide, by decide⟩)
  revert hkept
  rw [SslState.DatagramsKept]
  decide

end NginxDtls
