import NginxDtls.RelayChain

/-! What holds of a session between the steps: a buffer is in one list only, the write filter and the proxy agree on
what is unsent, and every queued buffer refers to bytes that nothing will write to. A step keeps this unless it leaves
an empty buffer at the head of the unsent chain. -/

namespace NginxDtls

structure Relay.Sound (r : Relay) : Prop where
  freeNodup : r.free.Nodup
  freeBelow : ∀ i ∈ r.free, i < r.fresh
  nodup : ∀ d, (r.flows d).queue.Nodup
  below : ∀ d, ∀ i ∈ (r.flows d).queue, i < r.fresh
  notFree : ∀ d, ∀ i ∈ (r.flows d).queue, i ∉ r.free
  apart : ∀ d, ∀ i ∈ (r.flows d).queue, i ∉ (r.flows !d).queue
  busy : ∀ d, (r.flows d).busy = (r.flows d).saved
  queued : ∀ d, ∀ i ∈ (r.flows d).queue, (r.bufs i).Queued d (r.flows d).last
  buffer : ∀ b, r.buffer = some b → b.area = .preread
  waiting : r.connected = false → (r.flows false).saved = []

theorem forall_flow {P : Bool → Prop} (d : Bool) (h : P d) (h' : P !d) : ∀ d', P d' := by
  intro d'
  cases d <;> cases d' <;> assumption

theorem Relay.Sound.finalize {r : Relay} (h : r.Sound) : ({ r with finalized := true } : Relay).Sound :=
  ⟨h.freeNodup, h.freeBelow, h.nodup, h.below, h.notFree, h.apart, h.busy, h.queued, h.buffer, h.waiting⟩

/-! ### Writing -/

/-- A write in direction `d` that sent `ss` and left the buffers `bufs`: those of `done` went to the free list, those
of `rest` remain. -/
structure Written (r r' : Relay) (d : Bool) (bufs : ℕ → NgxBuf) (done rest : List ℕ) (ss : List (List UInt8)) :
    Prop where
  sent : SentFrom d (r.flows d).last r.bufs (r.flows d).queue bufs done rest
  keep : ∀ i ∉ done, r'.bufs i = bufs i
  flow : r'.flows d = { r.flows d with
    out := [], busy := rest, saved := rest, buffered := !rest.isEmpty
    last := if rest = [] then 0 else (r.flows d).last, sent := (r.flows d).sent ++ ss }
  other : r'.flows (!d) = r.flows !d
  free : r'.free = done.reverse ++ r.free
  fresh : r'.fresh = r.fresh
  mem : r'.mem = r.mem
  buffer : r'.buffer = r.buffer
  connected : r'.connected = r.connected
  finalized : r'.finalized = r.finalized

namespace Written

variable {r r' : Relay} {d : Bool} {bufs : ℕ → NgxBuf} {done rest : List ℕ} {ss : List (List UInt8)}

theorem queue_eq (h : Written r r' d bufs done rest ss) : (r'.flows d).queue = rest := by
  rw [h.flow]
  exact List.append_nil rest

theorem rest_bufs (h : Written r r' d bufs done rest ss) (hr : r.Sound) : ∀ i ∈ rest, r'.bufs i = bufs i := by
  intro i hi
  refine h.keep i fun hdone => ?_
  have hnodup := hr.nodup d
  rw [h.sent.split] at hnodup
  exact (List.nodup_append.mp hnodup).2.2 i hdone i hi rfl

/-- What the other direction has queued is untouched. -/
theorem other_bufs (h : Written r r' d bufs done rest ss) (hr : r.Sound) :
    ∀ i ∈ (r.flows !d).queue, r'.bufs i = r.bufs i := by
  intro i hi
  have hnot : i ∉ (r.flows d).queue := fun hd => hr.apart d i hd hi
  rw [h.keep i fun hdone => hnot (h.sent.split ▸ List.mem_append_left _ hdone), h.sent.keep i hnot]

theorem sound (h : Written r r' d bufs done rest ss) (hr : r.Sound) (hwait : r.connected = false → d = true) :
    r'.Sound := by
  have hqueue := h.queue_eq
  have hsplit := h.sent.split
  have hnodup := hr.nodup d
  rw [hsplit, List.nodup_append] at hnodup
  have hdone : ∀ i ∈ done, i ∈ (r.flows d).queue := fun i hi => hsplit ▸ List.mem_append_left _ hi
  have hrest : ∀ i ∈ rest, i ∈ (r.flows d).queue := fun i hi => hsplit ▸ List.mem_append_right _ hi
  refine ⟨?_, ?_, ?_, ?_, ?_, ?_, ?_, ?_, ?_, ?_⟩
  · rw [h.free]
    refine List.nodup_append.mpr ⟨List.nodup_reverse.mpr hnodup.1, hr.freeNodup, ?_⟩
    rintro i hi j hj rfl
    exact hr.notFree d i (hdone i (List.mem_reverse.mp hi)) hj
  · intro i hi
    rw [h.free] at hi
    rw [h.fresh]
    obtain hi | hi := List.mem_append.mp hi
    · exact hr.below d i (hdone i (List.mem_reverse.mp hi))
    · exact hr.freeBelow i hi
  · refine forall_flow d ?_ ?_
    · rw [hqueue]
      exact hnodup.2.1
    · rw [h.other]
      exact hr.nodup _
  · rw [h.fresh]
    refine forall_flow d ?_ ?_
    · rw [hqueue]
      exact fun i hi => hr.below d i (hrest i hi)
    · rw [h.other]
      exact hr.below _
  · rw [h.free]
    refine forall_flow d ?_ ?_
    · rw [hqueue]
      intro i hi hfree
      obtain hfree | hfree := List.mem_append.mp hfree
      · exact hnodup.2.2 i (List.mem_reverse.mp hfree) i hi rfl
      · exact hr.notFree d i (hrest i hi) hfree
    · rw [h.other]
      intro i hi hfree
      obtain hfree | hfree := List.mem_append.mp hfree
      · exact hr.apart d i (hdone i (List.mem_reverse.mp hfree)) hi
      · exact hr.notFree _ i hi hfree
  · refine forall_flow d ?_ ?_
    · rw [hqueue, h.other]
      exact fun i hi => hr.apart d i (hrest i hi)
    · rw [Bool.not_not, hqueue, h.other]
      exact fun i hi hi' => hr.apart d i (hrest i hi') hi
  · refine forall_flow d ?_ ?_
    · rw [h.flow]
    · rw [h.other]
      exact hr.busy _
  · refine forall_flow d ?_ ?_
    · intro i hi
      rw [hqueue] at hi
      have hne : rest ≠ [] := List.ne_nil_of_mem hi
      rw [h.flow, h.rest_bufs hr i hi]
      simp only [if_neg hne]
      exact h.sent.queued i hi
    · intro i hi
      rw [h.other] at hi ⊢
      rw [h.other_bufs hr i hi]
      exact hr.queued _ i hi
  · rw [h.buffer]
    exact hr.buffer
  · intro hc
    rw [h.connected] at hc
    have hother : (r'.flows false) = r.flows false := by
      have := h.other
      rw [hwait hc] at this
      exact this
    rw [hother]
    exact hr.waiting hc

end Written

/-- The tail of `processWrite`: what was sent leaves the busy chain, and an empty busy chain rewinds the buffer. -/
def Relay.settle (r : Relay) (d : Bool) : Relay :=
  let r := ngxChainUpdateChains r d
  if (r.flows d).busy = [] then r.setFlow d fun f => { f with last := 0 } else r

section Settle

variable {r : Relay} {d : Bool} {done rest : List ℕ} {bufs : ℕ → NgxBuf}

theorem settle_written (h : r.Sound) (hsent : SentFrom d (r.flows d).last r.bufs (r.flows d).queue bufs done rest)
    (hunsent : Unsent bufs rest) (ss : List (List UInt8)) :
    Written r ((({ r with bufs := bufs } : Relay).setFlow d fun f =>
      { f with saved := rest, buffered := !rest.isEmpty, sent := f.sent ++ ss }).settle d) d bufs done rest ss := by
  have hdone : ∀ i ∈ done, (bufs i).tag = true ∧ ngxBufSize (bufs i) = 0 := by
    intro i hi
    have hmem : i ∈ (r.flows d).queue := hsent.split ▸ List.mem_append_left _ hi
    obtain ⟨k, hk⟩ := hsent.same i hmem
    refine ⟨?_, hsent.done i hi⟩
    rw [hk]
    exact (h.queued d i hmem).tag
  obtain ⟨bufs', hkeep, hrelease⟩ := releaseBusy_append r.free rest hdone
  have hdisj : ∀ i ∈ rest, i ∉ done := by
    intro i hi hd
    have hnodup := h.nodup d
    rw [hsent.split] at hnodup
    exact (List.nodup_append.mp hnodup).2.2 i hd i hi rfl
  have hstop : releaseBusy bufs' (done.reverse ++ r.free) rest =
      { bufs := bufs', free := done.reverse ++ r.free, chain := rest } := by
    refine releaseBusy_unsent _ ?_ ?_
    · intro i hi
      rw [hkeep i (hdisj i hi)]
      exact (hsent.queued i hi).tag
    · intro i hi
      rw [hkeep i (hdisj i (List.mem_of_mem_head? hi))]
      exact hunsent i hi
  have hbusy : (r.flows d).busy ++ (r.flows d).out = done ++ rest := by
    rw [h.busy, ← hsent.split]
    rfl
  have heq : (({ r with bufs := bufs } : Relay).setFlow d fun f =>
      { f with saved := rest, buffered := !rest.isEmpty, sent := f.sent ++ ss }).settle d =
      { r with
        bufs := bufs'
        free := done.reverse ++ r.free
        flows := Function.update r.flows d { r.flows d with
          out := [], busy := rest, saved := rest, buffered := !rest.isEmpty
          last := if rest = [] then 0 else (r.flows d).last, sent := (r.flows d).sent ++ ss } } := by
    simp only [Relay.settle, ngxChainUpdateChains, Relay.setFlow, Function.update_self, Function.update_idem, hbusy,
      hrelease, hstop]
    split <;> rfl
  rw [heq]
  refine ⟨hsent, hkeep, Function.update_self .., Function.update_of_ne ?_ _ _, rfl, rfl, rfl, rfl, rfl, rfl⟩
  simp

/-- The write filter fails, forgets a chain without data, or hands the chain to `send_chain`. -/
theorem ngxStreamWriteFilter_cases (conf : RelayConf) (r : Relay) (d : Bool) (send : Send) :
    ngxStreamWriteFilter conf r d send = none ∨
      ((∀ i ∈ (r.flows d).queue, ngxBufSize (r.bufs i) = 0) ∧
        ngxStreamWriteFilter conf r d send = some (r.setFlow d fun f => { f with saved := [], buffered := false })) ∨
      ∃ res, sendChain conf.type r.mem r.bufs (r.flows d).queue send = some res ∧
        ¬(res.chain ≠ [] ∧ d = true ∧ conf.shared = true) ∧
        (∃ i ∈ (r.flows d).queue, ngxBufSize (r.bufs i) ≠ 0 ∨ conf.type = .dgram) ∧
        ngxStreamWriteFilter conf r d send = some (({ r with bufs := res.bufs } : Relay).setFlow d fun f =>
          { f with saved := res.chain, buffered := !res.chain.isEmpty, sent := f.sent ++ res.sent }) := by
  rw [ngxStreamWriteFilter]
  split
  · exact Or.inl rfl
  · split
    · rename_i hsize
      split
      · refine Or.inr (Or.inl ⟨?_, rfl⟩)
        intro i hi
        exact List.sum_eq_zero_iff.mp hsize.1 _ (List.mem_map_of_mem hi)
      · exact Or.inl rfl
    · rename_i hsize
      split
      · exact Or.inl rfl
      · rename_i res hres
        split
        · exact Or.inl rfl
        · rename_i hshared
          refine Or.inr (Or.inr ⟨res, hres, hshared, ?_, rfl⟩)
          by_contra hnone
          push Not at hnone
          refine hsize ⟨?_, ?_⟩
          · refine List.sum_eq_zero_iff.mpr fun n hn => ?_
            obtain ⟨i, hi, rfl⟩ := List.mem_map.mp hn
            exact (hnone i hi).1
          · rintro ⟨hdgram, hflush⟩
            obtain ⟨i, hi, -⟩ := List.any_eq_true.mp hflush
            exact (hnone i hi).2 hdgram

/-- What `send_chain` has to do for a write to keep the invariant, and `K` of what it leaves. -/
def SendsWell (conf : RelayConf) (r : Relay) (d : Bool) (send : Send)
    (K : (ℕ → NgxBuf) → List ℕ → List (List UInt8) → Prop) : Prop :=
  ∀ res, sendChain conf.type r.mem r.bufs (r.flows d).queue send = some res →
    ¬(res.chain ≠ [] ∧ d = true ∧ conf.shared = true) →
    (∃ i ∈ (r.flows d).queue, ngxBufSize (r.bufs i) ≠ 0 ∨ conf.type = .dgram) →
    ∃ done, SentFrom d (r.flows d).last r.bufs (r.flows d).queue res.bufs done res.chain ∧ Unsent res.bufs res.chain ∧
      K res.bufs res.chain res.sent

theorem SendsWell.mono {conf : RelayConf} {send : Send} {K K' : (ℕ → NgxBuf) → List ℕ → List (List UInt8) → Prop}
    (h : SendsWell conf r d send K) (hK : ∀ bufs rest ss, K bufs rest ss → K' bufs rest ss) :
    SendsWell conf r d send K' := by
  intro res hres hshared hmem
  obtain ⟨done, hfrom, hunsent, hk⟩ := h res hres hshared hmem
  exact ⟨done, hfrom, hunsent, hK _ _ _ hk⟩

/-- A write does nothing, ends the session, or sends from the head of the chain. -/
theorem processWrite_cases {conf : RelayConf} {send : Send} {K : (ℕ → NgxBuf) → List ℕ → List (List UInt8) → Prop}
    (h : r.Sound) (hsend : SendsWell conf r d send K)
    (hempty : (∀ i ∈ (r.flows d).queue, ngxBufSize (r.bufs i) = 0) → K r.bufs [] []) :
    processWrite conf r d send = r ∨ processWrite conf r d send = { r with finalized := true } ∨
      ((d || r.connected) = true ∧
        ∃ bufs done rest ss, Written r (processWrite conf r d send) d bufs done rest ss ∧ K bufs rest ss) := by
  rw [processWrite]
  dsimp only
  split
  · rename_i hcond
    have hconn : (d || r.connected) = true := (Bool.and_eq_true_iff.mp hcond).1
    obtain hnone | ⟨hsize, hsome⟩ | ⟨res, hres, hshared, hmem, hsome⟩ := ngxStreamWriteFilter_cases conf r d send
    · rw [hnone]
      exact Or.inr (Or.inl rfl)
    · rw [hsome]
      refine Or.inr (Or.inr ⟨hconn, r.bufs, (r.flows d).queue, [], [], ?_, hempty hsize⟩)
      have hfrom : SentFrom d (r.flows d).last r.bufs (r.flows d).queue r.bufs (r.flows d).queue [] :=
        ⟨(List.append_nil _).symm, fun _ _ => rfl, fun i _ => ⟨(r.bufs i).pos, rfl⟩, hsize, by simp⟩
      have hw := settle_written h hfrom (by simp [Unsent]) []
      simp only [List.append_nil, List.isEmpty_nil, Bool.not_true] at hw
      exact hw
    · rw [hsome]
      obtain ⟨done, hfrom, hunsent, hK⟩ := hsend res hres hshared hmem
      exact Or.inr (Or.inr ⟨hconn, res.bufs, done, res.chain, res.sent, settle_written h hfrom hunsent res.sent, hK⟩)
  · exact Or.inl rfl

end Settle

/-! ### Reading -/

/-- A buffer that no list holds, taken from the free list or made. -/
structure Fresh (r r' : Relay) (i : ℕ) : Prop where
  notQueued : ∀ d, i ∉ (r.flows d).queue
  notFree : i ∉ r'.free
  lt : i < r'.fresh
  sub : r'.free.Sublist r.free
  le : r.fresh ≤ r'.fresh
  bufs : ∀ j, j ≠ i → r'.bufs j = r.bufs j
  rest : r'.mem = r.mem ∧ r'.buffer = r.buffer ∧ r'.connected = r.connected ∧ r'.flows = r.flows ∧
    r'.finalized = r.finalized

theorem ngxChainGetFreeBuf_fresh {r : Relay} (h : r.Sound) :
    Fresh r (ngxChainGetFreeBuf r).2 (ngxChainGetFreeBuf r).1 := by
  rw [ngxChainGetFreeBuf]
  split
  · rename_i i rest hfree
    have hnodup := h.freeNodup
    rw [hfree, List.nodup_cons] at hnodup
    have hi : i ∈ r.free := by
      rw [hfree]
      exact List.mem_cons_self
    exact ⟨fun d hd => h.notFree d i hd hi, hnodup.1, h.freeBelow i hi, by rw [hfree]; exact List.sublist_cons_self _ _,
      le_rfl, fun _ _ => rfl, rfl, rfl, rfl, rfl, rfl⟩
  · rename_i hfree
    refine ⟨fun d hd => (h.below d _ hd).false, ?_, Nat.lt_succ_self _, List.Sublist.refl _, Nat.le_succ _,
      fun j hj => Function.update_of_ne hj _ _, rfl, rfl, rfl, rfl, rfl⟩
    rw [hfree]
    exact List.not_mem_nil

/-- A fresh buffer joins the queue of a direction. -/
theorem Relay.Sound.enqueue {r r' : Relay} {i : ℕ} (h : r.Sound) (hf : Fresh r r' i) (d : Bool) {b : NgxBuf}
    {f : Flow} (mem : Areas) (hqueue : f.queue.Perm (i :: (r.flows d).queue)) (hbusy : f.busy = f.saved)
    (hsaved : f.saved = (r.flows d).saved) (hlast : (r.flows d).last ≤ f.last) (hb : b.Queued d f.last) :
    ({ r' with bufs := Function.update r'.bufs i b, mem := mem, flows := Function.update r'.flows d f } : Relay).Sound := by
  obtain ⟨-, hbuffer, hconn, hflows, -⟩ := hf.rest
  have hself : Function.update r'.flows d f d = f := Function.update_self ..
  have hother : Function.update r'.flows d f (!d) = r.flows !d := by
    rw [Function.update_of_ne (by simp), hflows]
  have hmem : ∀ j, j ∈ f.queue ↔ j = i ∨ j ∈ (r.flows d).queue := by
    intro j
    rw [hqueue.mem_iff, List.mem_cons]
  have hkeep : ∀ d', ∀ j ∈ (r.flows d').queue, Function.update r'.bufs i b j = r.bufs j := by
    intro d' j hj
    have hji : j ≠ i := fun heq => hf.notQueued d' (heq ▸ hj)
    rw [Function.update_of_ne hji, hf.bufs j hji]
  refine ⟨h.freeNodup.sublist hf.sub, fun j hj => (h.freeBelow j (hf.sub.subset hj)).trans_le hf.le, ?_, ?_, ?_, ?_, ?_,
    ?_, ?_, ?_⟩
  · refine forall_flow d ?_ ?_
    · simp only [hself]
      rw [hqueue.nodup_iff, List.nodup_cons]
      exact ⟨hf.notQueued d, h.nodup d⟩
    · simp only [hother]
      exact h.nodup _
  · refine forall_flow d ?_ ?_
    · simp only [hself, hmem]
      rintro j (rfl | hj)
      · exact hf.lt
      · exact (h.below d j hj).trans_le hf.le
    · simp only [hother]
      exact fun j hj => (h.below _ j hj).trans_le hf.le
  · refine forall_flow d ?_ ?_
    · simp only [hself, hmem]
      rintro j (rfl | hj)
      · exact hf.notFree
      · exact fun hfree => h.notFree d j hj (hf.sub.subset hfree)
    · simp only [hother]
      exact fun j hj hfree => h.notFree _ j hj (hf.sub.subset hfree)
  · refine forall_flow d ?_ ?_
    · simp only [hself, hother, hmem]
      rintro j (rfl | hj)
      · exact hf.notQueued _
      · exact h.apart d j hj
    · simp only [Bool.not_not, hself, hother, hmem]
      rintro j hj (rfl | hj')
      · exact hf.notQueued _ hj
      · exact h.apart d j hj' hj
  · refine forall_flow d ?_ ?_
    · simp only [hself]
      exact hbusy
    · simp only [hother]
      exact h.busy _
  · refine forall_flow d ?_ ?_
    · simp only [hself, hmem]
      rintro j (rfl | hj)
      · rw [Function.update_self]
        exact hb
      · rw [hkeep d j hj]
        exact (h.queued d j hj).mono hlast
    · simp only [hother]
      intro j hj
      rw [hkeep _ j hj]
      exact h.queued _ j hj
  · intro b hb
    exact h.buffer b (hbuffer ▸ hb)
  · intro hc
    have hc' : r.connected = false := hconn ▸ hc
    have hwait := h.waiting hc'
    cases d with
    | false =>
      simp only [hself]
      rw [hsaved, hwait]
    | true =>
      have := hother
      simp only [Bool.not_true] at this
      simp only [this]
      exact hwait

/-- What `recv` returned is at the end of the queue. -/
structure Received (r r' : Relay) (d : Bool) (bs : List UInt8) (eof : Bool) (i : ℕ) : Prop where
  flow : r'.flows d = { r.flows d with
    out := (r.flows d).out ++ [i], last := (r.flows d).last + bs.length
    ended := (r.flows d).ended || eof, received := (r.flows d).received ++ [bs] }
  other : r'.flows (!d) = r.flows !d
  keep : ∀ d', ∀ j ∈ (r.flows d').queue, r'.bufs j = r.bufs j
  new : ∃ start, r'.bufs i =
    { area := .proxy d, start, pos := (r.flows d).last, last := (r.flows d).last + bs.length,
      temporary := !bs.isEmpty, flush := true, lastBuf := eof, tag := true }
  mem : r'.mem = r.mem.store (.proxy d) (r.flows d).last bs
  buffer : r'.buffer = r.buffer
  connected : r'.connected = r.connected
  finalized : r'.finalized = r.finalized

namespace Received

variable {r r' : Relay} {d : Bool} {bs : List UInt8} {eof : Bool} {i : ℕ}

theorem queue_eq (h : Received r r' d bs eof i) : (r'.flows d).queue = (r.flows d).queue ++ [i] := by
  rw [h.flow]
  exact (List.append_assoc _ _ _).symm

theorem bytes_new (h : Received r r' d bs eof i) : (r'.bufs i).bytes r'.mem = bs := by
  obtain ⟨start, hnew⟩ := h.new
  rw [hnew, h.mem]
  cases bs with
  | nil => rfl
  | cons b bs =>
    rw [NgxBuf.bytes, if_pos (by simp)]
    exact Areas.slice_store_self _ _ _ _

theorem bytes_keep (h : Received r r' d bs eof i) (hr : r.Sound) (d' : Bool) :
    chainBytes r'.mem r'.bufs (r.flows d').queue = chainBytes r.mem r.bufs (r.flows d').queue := by
  refine List.map_congr_left fun j hj => ?_
  rw [h.keep d' j hj, h.mem]
  exact (hr.queued d' j hj).bytes_store (fun hd => by rw [hd]) bs

theorem bytes_queue (h : Received r r' d bs eof i) (hr : r.Sound) :
    chainBytes r'.mem r'.bufs (r'.flows d).queue = chainBytes r.mem r.bufs (r.flows d).queue ++ [bs] := by
  rw [h.queue_eq, chainBytes_append, h.bytes_keep hr d]
  exact congrArg (_ ++ [·]) h.bytes_new

theorem bytes_other (h : Received r r' d bs eof i) (hr : r.Sound) :
    chainBytes r'.mem r'.bufs (r'.flows !d).queue = chainBytes r.mem r.bufs (r.flows !d).queue := by
  rw [h.other]
  exact h.bytes_keep hr !d

end Received

/-- The buffer for `n` bytes that were read at `last`. -/
theorem queued_received (d : Bool) (start last n : ℕ) (eof : Bool) :
    ({ area := .proxy d, start, pos := last, last := last + n, temporary := decide (n ≠ 0), flush := true,
       lastBuf := eof, tag := true } : NgxBuf).Queued d (last + n) := by
  refine ⟨rfl, ?_, Nat.le_add_right _ _, ?_, fun _ => le_rfl⟩
  · by_cases hn : n = 0
    · right
      simp [ngxBufSpecial, hn]
    · left
      simp [ngxBufSize, hn]
  · cases d <;> simp

theorem queueReceived_received {r : Relay} (h : r.Sound) (d : Bool) (bs : List UInt8) (eof : Bool) :
    (queueReceived r d bs eof).Sound ∧ Received r (queueReceived r d bs eof) d bs eof (ngxChainGetFreeBuf r).1 := by
  have hf := ngxChainGetFreeBuf_fresh h
  obtain ⟨hmem, hbuffer, hconn, hflows, hfin⟩ := hf.rest
  have htemp : (!bs.isEmpty) = decide (bs.length ≠ 0) := by
    cases bs <;> simp
  have hflowd : (ngxChainGetFreeBuf r).2.flows d = r.flows d := by rw [hflows]
  constructor
  · have hnew := queued_received d ((ngxChainGetFreeBuf r).2.bufs (ngxChainGetFreeBuf r).1).start (r.flows d).last
      bs.length eof
    rw [← htemp] at hnew
    refine h.enqueue hf d (f := { (ngxChainGetFreeBuf r).2.flows d with
      out := ((ngxChainGetFreeBuf r).2.flows d).out ++ [(ngxChainGetFreeBuf r).1]
      last := (r.flows d).last + bs.length
      ended := ((ngxChainGetFreeBuf r).2.flows d).ended || eof
      received := ((ngxChainGetFreeBuf r).2.flows d).received ++ [bs] })
      ((ngxChainGetFreeBuf r).2.mem.store (.proxy d) (r.flows d).last bs) ?_ ?_ ?_ ?_ hnew
    · rw [hflowd]
      show ((r.flows d).saved ++ ((r.flows d).out ++ [_])).Perm _
      rw [← List.append_assoc]
      exact List.perm_append_singleton _ _
    · rw [hflowd]
      exact h.busy d
    · rw [hflowd]
    · exact Nat.le_add_right _ _
  · refine ⟨?_, ?_, ?_, ?_, ?_, hbuffer, hconn, hfin⟩
    · simp [queueReceived, Relay.setFlow, Relay.setBuf, hflows]
    · simp [queueReceived, Relay.setFlow, Relay.setBuf, hflows]
    · intro d' j hj
      have hji : j ≠ (ngxChainGetFreeBuf r).1 := fun heq => hf.notQueued d' (heq ▸ hj)
      show Function.update (ngxChainGetFreeBuf r).2.bufs (ngxChainGetFreeBuf r).1 _ j = _
      rw [Function.update_of_ne hji, hf.bufs j hji]
    · exact ⟨_, Function.update_self ..⟩
    · show (ngxChainGetFreeBuf r).2.mem.store _ _ _ = _
      rw [hmem]

/-- The datagrams that a call of `recv` finds. -/
def arrivals (conf : RelayConf) : Recv → List (List UInt8)
  | .data bs => if conf.type = .dgram then [bs] else []
  | _ => []

theorem Relay.setFlow_self (r : Relay) (d : Bool) : r.setFlow d (fun f => f) = r := by
  show { r with flows := Function.update r.flows d (r.flows d) } = r
  rw [Function.update_eq_self]

theorem arrive_eq (conf : RelayConf) (r : Relay) (d : Bool) (recv : Recv) :
    r.arrive conf d recv = r.setFlow d fun f => { f with arrived := f.arrived ++ arrivals conf recv } := by
  have hnone : (r.setFlow d fun f => { f with arrived := f.arrived ++ [] }) = r := by
    simp only [List.append_nil]
    exact r.setFlow_self d
  cases recv with
  | again => exact hnone.symm
  | error => exact hnone.symm
  | data bs =>
    simp only [Relay.arrive, arrivals]
    split
    · rfl
    · exact hnone.symm

/-- A change of a direction that leaves its chains alone. -/
theorem Relay.Sound.setFlow {r : Relay} (h : r.Sound) (d : Bool) {f : Flow → Flow}
    (hqueue : (f (r.flows d)).queue = (r.flows d).queue) (hbusy : (f (r.flows d)).busy = (r.flows d).busy)
    (hsaved : (f (r.flows d)).saved = (r.flows d).saved) (hlast : (f (r.flows d)).last = (r.flows d).last) :
    (r.setFlow d f).Sound := by
  have hflow : ∀ d', ((r.setFlow d f).flows d').queue = (r.flows d').queue ∧
      ((r.setFlow d f).flows d').busy = (r.flows d').busy ∧ ((r.setFlow d f).flows d').saved = (r.flows d').saved ∧
      ((r.setFlow d f).flows d').last = (r.flows d').last := by
    refine forall_flow d ?_ ?_
    · simp only [Relay.setFlow, Function.update_self]
      exact ⟨hqueue, hbusy, hsaved, hlast⟩
    · simp [Relay.setFlow]
  refine ⟨h.freeNodup, h.freeBelow, fun d' => ?_, fun d' => ?_, fun d' => ?_, fun d' => ?_, fun d' => ?_, fun d' => ?_,
    h.buffer, fun hc => ?_⟩
  · rw [(hflow d').1]
    exact h.nodup d'
  · rw [(hflow d').1]
    exact h.below d'
  · rw [(hflow d').1]
    exact h.notFree d'
  · rw [(hflow d').1, (hflow _).1]
    exact h.apart d'
  · rw [(hflow d').2.1, (hflow d').2.2.1]
    exact h.busy d'
  · rw [(hflow d').1, (hflow d').2.2.2]
    exact h.queued d'
  · rw [(hflow false).2.2.1]
    exact h.waiting hc

/-- What `recv` returns for what it finds, and whether the stream has ended by then. -/
def Reads (conf : RelayConf) (f : Flow) (recv : Recv) (bs : List UInt8) (eof : Bool) : Prop :=
  f.last < conf.bufferSize ∧
    ((recv = .error ∧ bs = [] ∧ eof = true) ∨
      ∃ x, recv = .data x ∧ bs = (if f.ended then [] else x.take (conf.bufferSize - f.last)) ∧
        eof = (f.ended || (conf.type = .stream && bs.isEmpty)))

theorem processRead_cases (conf : RelayConf) (r : Relay) (d : Bool) (recv : Recv) :
    processRead conf r d recv = (r.arrive conf d recv, false) ∨
      ∃ bs eof, processRead conf r d recv = (queueReceived (r.arrive conf d recv) d bs eof, true) ∧
        Reads conf (r.flows d) recv bs eof := by
  unfold processRead
  dsimp only
  split
  · exact Or.inl rfl
  · rename_i hsize
    have hlt : (r.flows d).last < conf.bufferSize := by omega
    cases recv with
    | again => exact Or.inl rfl
    | error => exact Or.inr ⟨[], true, rfl, hlt, Or.inl ⟨rfl, rfl, rfl⟩⟩
    | data x => exact Or.inr ⟨_, _, rfl, hlt, Or.inr ⟨x, rfl, rfl, rfl⟩⟩

/-! ### The start of the flow to the upstream -/

/-- A buffer that the proxy puts before the data of the client. -/
theorem prepend_sound {r : Relay} (h : r.Sound) (hwait : r.connected = false) {b : NgxBuf}
    (hb : b.Queued false 0) (hown : ∀ d, b.area ≠ .proxy d) :
    (r.prepend b).Sound ∧ ((r.prepend b).flows false).queue = (ngxChainGetFreeBuf r).1 :: (r.flows false).queue ∧
      (r.prepend b).flows true = r.flows true ∧
      (r.prepend b).flows false = { r.flows false with out := (ngxChainGetFreeBuf r).1 :: (r.flows false).out } ∧
      (r.prepend b).bufs (ngxChainGetFreeBuf r).1 = b ∧ (r.prepend b).mem = r.mem ∧
      (∀ d, ∀ j ∈ (r.flows d).queue, (r.prepend b).bufs j = r.bufs j) ∧
      (r.prepend b).connected = false ∧ (r.prepend b).buffer = r.buffer := by
  have hf := ngxChainGetFreeBuf_fresh h
  obtain ⟨hmem, hbuffer, hconn, hflows, -⟩ := hf.rest
  have hsaved := h.waiting hwait
  have hflow : (r.prepend b).flows false =
      { r.flows false with out := (ngxChainGetFreeBuf r).1 :: (r.flows false).out } := by
    simp [Relay.prepend, Relay.setFlow, Relay.setBuf, hflows]
  have hqueue : ((r.prepend b).flows false).queue = (ngxChainGetFreeBuf r).1 :: (r.flows false).queue := by
    rw [hflow]
    simp only [Flow.queue, hsaved, List.nil_append]
  refine ⟨?_, hqueue, ?_, hflow, Function.update_self .., hmem, ?_, hconn.trans hwait, hbuffer⟩
  · have hflowd : (ngxChainGetFreeBuf r).2.flows false = r.flows false := by rw [hflows]
    refine h.enqueue hf false (b := b) (f := { (ngxChainGetFreeBuf r).2.flows false with
      out := (ngxChainGetFreeBuf r).1 :: ((ngxChainGetFreeBuf r).2.flows false).out })
      (ngxChainGetFreeBuf r).2.mem ?_ ?_ ?_ ?_ ?_
    · rw [hflowd]
      simp only [Flow.queue, hsaved, List.nil_append]
      exact List.Perm.refl _
    · rw [hflowd]
      exact h.busy false
    · rw [hflowd]
    · rw [hflowd]
    · exact ⟨hb.tag, hb.sized, hb.ordered, hb.own, fun ha => absurd ha (hown _)⟩
  · simp [Relay.prepend, Relay.setFlow, Relay.setBuf, hflows]
  · intro d j hj
    have hji : j ≠ (ngxChainGetFreeBuf r).1 := fun heq => hf.notQueued d (heq ▸ hj)
    show Function.update (ngxChainGetFreeBuf r).2.bufs (ngxChainGetFreeBuf r).1 b j = _
    rw [Function.update_of_ne hji, hf.bufs j hji]

/-- The chain that waits for an upstream is dropped. -/
theorem Relay.Sound.dropOut {r : Relay} (h : r.Sound) (hwait : r.connected = false) :
    (r.setFlow false fun f => { f with out := [] }).Sound := by
  have hfalse : (r.setFlow false fun f => { f with out := [] }).flows false = { r.flows false with out := [] } :=
    r.setFlow_flows false _
  have htrue : (r.setFlow false fun f => { f with out := [] }).flows true = r.flows true :=
    r.setFlow_flows_of_ne (by simp) _
  have hqueue : ((r.setFlow false fun f => { f with out := [] }).flows false).queue = [] := by
    rw [hfalse]
    simp [Flow.queue, h.waiting hwait]
  refine ⟨h.freeNodup, h.freeBelow, forall_flow false ?_ ?_, forall_flow false ?_ ?_, forall_flow false ?_ ?_,
    forall_flow false ?_ ?_, forall_flow false ?_ ?_, forall_flow false ?_ ?_, h.buffer, ?_⟩
  · rw [hqueue]
    simp
  · rw [Bool.not_false, htrue]
    exact h.nodup true
  · rw [hqueue]
    simp
  · rw [Bool.not_false, htrue]
    exact h.below true
  · rw [hqueue]
    simp
  · rw [Bool.not_false, htrue]
    exact h.notFree true
  · rw [hqueue]
    simp
  · rw [Bool.not_not, hqueue]
    simp
  · rw [hfalse]
    exact h.busy false
  · rw [Bool.not_false, htrue]
    exact h.busy true
  · rw [hqueue]
    simp
  · rw [Bool.not_false, htrue]
    exact h.queued true
  · intro hc
    rw [hfalse]
    exact h.waiting hwait

end NginxDtls
