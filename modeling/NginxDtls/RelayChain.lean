import Mathlib.Data.List.TakeWhile
import NginxDtls.Relay

/-! What sending and releasing do to a chain of buffers. A buffer that waits in a chain has something to send, or is a
flush without data; it refers to bytes of its proxy buffer below `b->last`, which nothing writes to. Sending walks
past the buffers that are done with, and `ngx_chain_update_chains` moves the same ones to the free list, unless an
empty buffer is left at the head. -/

namespace NginxDtls

/-! ### Memory -/

namespace Areas

variable (mem : Areas) (a : Area)

@[simp]
theorem length_slice (pos last : ℕ) : (mem.slice a pos last).length = last - pos := by
  simp [slice]

theorem slice_drop (pos last k : ℕ) : (mem.slice a pos last).drop k = mem.slice a (pos + k) last := by
  simp only [slice, ← List.map_drop, List.drop_range', mul_one, Nat.sub_sub]

theorem slice_store_of_le {off pos last : ℕ} (bs : List UInt8) (h : last ≤ off) :
    (mem.store a off bs).slice a pos last = mem.slice a pos last := by
  refine List.map_congr_left fun i hi => ?_
  have hlt : i < off := by
    have := List.mem_range'_1.mp hi
    omega
  simp only [store, Function.update_self]
  exact if_neg (by omega)

theorem slice_store_of_ne {a' : Area} (h : a' ≠ a) (off pos last : ℕ) (bs : List UInt8) :
    (mem.store a off bs).slice a' pos last = mem.slice a' pos last := by
  simp only [slice, store, Function.update_of_ne h]

theorem slice_store_self (off : ℕ) (bs : List UInt8) :
    (mem.store a off bs).slice a off (off + bs.length) = bs := by
  refine List.ext_getElem (by simp) fun k hk hk' => ?_
  simp [slice, store, List.getElem?_eq_getElem hk']

theorem slice_of_list {l : List UInt8} (h : ∀ i, mem a i = l[i]?.getD 0) (pos : ℕ) :
    mem.slice a pos l.length = l.drop pos := by
  refine List.ext_getElem (by simp) fun k hk hk' => ?_
  have hlt : pos + k < l.length := by
    simp only [length_slice] at hk
    omega
  simp [slice, h, List.getElem?_eq_getElem hlt]

end Areas

namespace NgxBuf

variable {mem : Areas} {b : NgxBuf}

theorem length_bytes (mem : Areas) (b : NgxBuf) : (b.bytes mem).length = ngxBufSize b := by
  rw [bytes, ngxBufSize]
  split
  · exact mem.length_slice _ _ _
  · rfl

theorem bytes_eq_nil_of_size (h : ngxBufSize b = 0) : b.bytes mem = [] :=
  List.length_eq_zero_iff.mp ((b.length_bytes mem).trans h)

theorem size_of_special (h : ngxBufSpecial b = true) : ngxBufSize b = 0 := by
  simp only [ngxBufSpecial, Bool.and_eq_true, Bool.not_eq_true'] at h
  simp [ngxBufSize, h.2]

/-- A prefix of the buffer is sent. -/
def sentTo (b : NgxBuf) (k : ℕ) : NgxBuf := { b with pos := k }

theorem bytes_sentTo (hb : b.temporary = true) (k : ℕ) : (b.sentTo (b.pos + k)).bytes mem = (b.bytes mem).drop k := by
  simp only [bytes, sentTo, hb, if_true]
  exact (mem.slice_drop _ _ _ _).symm

/-- A buffer that may wait in a chain: it has something to send or is a flush without data, and it refers to no byte
of the proxy buffers but those below `last` in the one of its direction. -/
structure Queued (d : Bool) (last : ℕ) (b : NgxBuf) : Prop where
  tag : b.tag = true
  sized : ngxBufSize b ≠ 0 ∨ ngxBufSpecial b = true
  ordered : b.pos ≤ b.last
  own : b.area ≠ .proxy !d
  below : b.area = .proxy d → b.last ≤ last

theorem Queued.mono {d : Bool} {last last' : ℕ} (h : b.Queued d last) (hle : last ≤ last') : b.Queued d last' :=
  ⟨h.tag, h.sized, h.ordered, h.own, fun ha => (h.below ha).trans hle⟩

/-- What is read into the free part of a proxy buffer leaves the queued buffers alone. -/
theorem Queued.bytes_store {d d' : Bool} {last off : ℕ} (h : b.Queued d last) (hoff : d' = d → last ≤ off)
    (bs : List UInt8) : b.bytes (mem.store (.proxy d') off bs) = b.bytes mem := by
  rw [bytes, bytes]
  by_cases ha : b.area = .proxy d'
  · have hd : d' = d := by
      by_contra hne
      refine h.own (ha.trans ?_)
      cases d <;> cases d' <;> simp_all
    rw [ha, mem.slice_store_of_le _ bs ((h.below (hd ▸ ha)).trans (hoff hd))]
  · rw [mem.slice_store_of_ne _ ha]

end NgxBuf

/-! ### Chains -/

variable {bufs : ℕ → NgxBuf} {mem : Areas} {d : Bool} {last : ℕ} {chain : List ℕ}

/-- The first buffer of the chain, if there is one, has something to send. -/
def Unsent (bufs : ℕ → NgxBuf) (chain : List ℕ) : Prop := ∀ i, chain.head? = some i → ngxBufSize (bufs i) ≠ 0

def chainBytes (mem : Areas) (bufs : ℕ → NgxBuf) (chain : List ℕ) : List (List UInt8) :=
  chain.map fun i => (bufs i).bytes mem

theorem chainBytes_congr {bufs' : ℕ → NgxBuf} (h : ∀ i ∈ chain, bufs' i = bufs i) :
    chainBytes mem bufs' chain = chainBytes mem bufs chain := by
  refine List.map_congr_left fun i hi => ?_
  rw [h i hi]

theorem chainBytes_append (mem : Areas) (bufs : ℕ → NgxBuf) (l l' : List ℕ) :
    chainBytes mem bufs (l ++ l') = chainBytes mem bufs l ++ chainBytes mem bufs l' := List.map_append

/-- Buffers without data leave the busy list for the free list. -/
theorem releaseBusy_append (free rest : List ℕ) {done : List ℕ}
    (h : ∀ i ∈ done, (bufs i).tag = true ∧ ngxBufSize (bufs i) = 0) :
    ∃ bufs', (∀ i ∉ done, bufs' i = bufs i) ∧
      releaseBusy bufs free (done ++ rest) = releaseBusy bufs' (done.reverse ++ free) rest := by
  induction done generalizing bufs free with
  | nil => exact ⟨bufs, fun _ _ => rfl, rfl⟩
  | cons i done ih =>
    obtain ⟨htag, hsize⟩ := h i List.mem_cons_self
    have hempty : ngxBufSize { bufs i with pos := (bufs i).start, last := (bufs i).start } = 0 := by
      simp [ngxBufSize]
    have hdone : ∀ j ∈ done,
        (Function.update bufs i { bufs i with pos := (bufs i).start, last := (bufs i).start } j).tag = true ∧
        ngxBufSize (Function.update bufs i { bufs i with pos := (bufs i).start, last := (bufs i).start } j) = 0 := by
      intro j hj
      by_cases hji : j = i
      · rw [hji, Function.update_self]
        exact ⟨htag, hempty⟩
      · rw [Function.update_of_ne hji]
        exact h j (List.mem_cons_of_mem _ hj)
    obtain ⟨bufs', hkeep, heq⟩ := ih (i :: free) hdone
    refine ⟨bufs', ?_, ?_⟩
    · intro j hj
      have hji : j ≠ i := fun heq => hj (heq ▸ List.mem_cons_self)
      rw [hkeep j fun hjd => hj (List.mem_cons_of_mem _ hjd), Function.update_of_ne hji]
    · rw [List.cons_append, releaseBusy, if_neg (by simp [htag]), if_neg (by simp [hsize])]
      rw [heq, List.reverse_cons, List.append_assoc]
      rfl

theorem releaseBusy_unsent (free : List ℕ) (htag : ∀ i ∈ chain, (bufs i).tag = true) (h : Unsent bufs chain) :
    releaseBusy bufs free chain = { bufs, free, chain } := by
  cases chain with
  | nil => rfl
  | cons i rest =>
    have hi := htag i List.mem_cons_self
    rw [releaseBusy, if_neg (by simp [hi]), if_pos (h i rfl)]

/-- What a send does to a chain of queued buffers: it walks past `done`, whose buffers have nothing left. -/
structure SentFrom (d : Bool) (last : ℕ) (bufs : ℕ → NgxBuf) (chain : List ℕ) (bufs' : ℕ → NgxBuf)
    (done rest : List ℕ) : Prop where
  split : chain = done ++ rest
  keep : ∀ i ∉ chain, bufs' i = bufs i
  same : ∀ i ∈ chain, ∃ k, bufs' i = (bufs i).sentTo k
  done : ∀ i ∈ done, ngxBufSize (bufs' i) = 0
  queued : ∀ i ∈ rest, (bufs' i).Queued d last

theorem SentFrom.cons {i : ℕ} {rest done rest' : List ℕ} {b : NgxBuf} {bufs' : ℕ → NgxBuf} (hi : i ∉ rest)
    (hb : ∃ k, b = (bufs i).sentTo k) (hsize : ngxBufSize b = 0)
    (h : SentFrom d last (Function.update bufs i b) rest bufs' done rest') :
    SentFrom d last bufs (i :: rest) bufs' (i :: done) rest' := by
  have hbufs : bufs' i = b := by rw [h.keep i hi, Function.update_self]
  refine ⟨congrArg (i :: ·) h.split, ?_, ?_, ?_, h.queued⟩
  · intro j hj
    have hji : j ≠ i := fun heq => hj (heq ▸ List.mem_cons_self)
    rw [h.keep j fun hjr => hj (List.mem_cons_of_mem _ hjr), Function.update_of_ne hji]
  · intro j hj
    obtain rfl | hj := List.mem_cons.mp hj
    · rw [hbufs]
      exact hb
    · obtain ⟨k, hk⟩ := h.same j hj
      have hji : j ≠ i := fun heq => hi (heq ▸ hj)
      rw [Function.update_of_ne hji] at hk
      exact ⟨k, hk⟩
  · intro j hj
    obtain rfl | hj := List.mem_cons.mp hj
    · rw [hbufs]
      exact hsize
    · exact h.done j hj

theorem SentFrom.refl (hq : ∀ i ∈ chain, (bufs i).Queued d last) : SentFrom d last bufs chain bufs [] chain :=
  ⟨rfl, fun _ _ => rfl, fun i _ => ⟨(bufs i).pos, rfl⟩, by simp, hq⟩

section UpdateSent

variable {i n : ℕ} {rest : List ℕ}

theorem ngxChainUpdateSent_special (h : ngxBufSpecial (bufs i) = true) :
    ngxChainUpdateSent bufs (i :: rest) n = ngxChainUpdateSent bufs rest n := by
  rw [ngxChainUpdateSent, if_pos h]

theorem ngxChainUpdateSent_zero (h : ngxBufSpecial (bufs i) = false) :
    ngxChainUpdateSent bufs (i :: rest) 0 = (bufs, i :: rest) := by
  rw [ngxChainUpdateSent, if_neg (by simp [h]), if_pos rfl]

theorem ngxChainUpdateSent_whole (ht : (bufs i).temporary = true) (hn : n ≠ 0) (hle : ngxBufSize (bufs i) ≤ n) :
    ngxChainUpdateSent bufs (i :: rest) n =
      ngxChainUpdateSent (Function.update bufs i ((bufs i).sentTo (bufs i).last)) rest (n - ngxBufSize (bufs i)) := by
  rw [ngxChainUpdateSent, if_neg (by simp [ngxBufSpecial, ht]), if_neg hn, if_pos hle]
  dsimp only
  rw [if_pos ht]
  rfl

theorem ngxChainUpdateSent_part (ht : (bufs i).temporary = true) (hn : n ≠ 0) (hlt : n < ngxBufSize (bufs i)) :
    ngxChainUpdateSent bufs (i :: rest) n =
      (Function.update bufs i ((bufs i).sentTo ((bufs i).pos + n)), i :: rest) := by
  rw [ngxChainUpdateSent, if_neg (by simp [ngxBufSpecial, ht]), if_neg hn, if_neg (by omega)]
  dsimp only
  rw [if_pos ht]
  rfl

end UpdateSent

theorem NgxBuf.temporary_of_size {b : NgxBuf} (h : ngxBufSize b ≠ 0) : b.temporary = true := by
  by_contra ht
  exact h (by simp [ngxBufSize, ht])

theorem update_of_mem {i j : ℕ} {rest : List ℕ} (hi : i ∉ rest) (hj : j ∈ rest) (b : NgxBuf) :
    Function.update bufs i b j = bufs j := by
  have hne : j ≠ i := fun heq => hi (heq ▸ hj)
  exact Function.update_of_ne hne _ _

/-- A chain is sent up to any byte of it. -/
theorem ngxChainUpdateSent_spec (mem : Areas) (hnodup : chain.Nodup) (hq : ∀ i ∈ chain, (bufs i).Queued d last)
    (n : ℕ) :
    ∃ done, SentFrom d last bufs chain (ngxChainUpdateSent bufs chain n).1 done (ngxChainUpdateSent bufs chain n).2 ∧
      Unsent (ngxChainUpdateSent bufs chain n).1 (ngxChainUpdateSent bufs chain n).2 ∧
      (chainBytes mem (ngxChainUpdateSent bufs chain n).1 (ngxChainUpdateSent bufs chain n).2).flatten =
        (chainBytes mem bufs chain).flatten.drop n := by
  induction chain generalizing bufs n with
  | nil =>
    refine ⟨[], SentFrom.refl hq, ?_, ?_⟩
    · simp [ngxChainUpdateSent, Unsent]
    · simp [ngxChainUpdateSent, chainBytes]
  | cons i rest ih =>
    obtain ⟨hi, hrest⟩ := List.nodup_cons.mp hnodup
    have hqi := hq i List.mem_cons_self
    have hqr : ∀ j ∈ rest, (bufs j).Queued d last := fun j hj => hq j (List.mem_cons_of_mem _ hj)
    have hcons : (chainBytes mem bufs (i :: rest)).flatten =
        (bufs i).bytes mem ++ (chainBytes mem bufs rest).flatten := rfl
    have hlen := (bufs i).length_bytes mem
    by_cases hspecial : ngxBufSpecial (bufs i) = true
    · have hsize := NgxBuf.size_of_special hspecial
      obtain ⟨done, hfrom, hunsent, hbytes⟩ := ih hrest hqr n
      rw [ngxChainUpdateSent_special hspecial]
      refine ⟨i :: done, ?_, hunsent, ?_⟩
      · refine SentFrom.cons hi ⟨(bufs i).pos, rfl⟩ hsize ?_
        exact (Function.update_eq_self i bufs).symm ▸ hfrom
      · rw [hbytes, hcons, NgxBuf.bytes_eq_nil_of_size hsize, List.nil_append]
    · have hsize : ngxBufSize (bufs i) ≠ 0 := hqi.sized.resolve_right hspecial
      have htemp := NgxBuf.temporary_of_size hsize
      by_cases hn : n = 0
      · rw [hn, ngxChainUpdateSent_zero (by simpa using hspecial)]
        refine ⟨[], SentFrom.refl hq, ?_, rfl⟩
        intro j hj
        cases hj
        exact hsize
      · by_cases hle : ngxBufSize (bufs i) ≤ n
        · have hkeep : ∀ j ∈ rest, Function.update bufs i ((bufs i).sentTo (bufs i).last) j = bufs j :=
            fun j hj => update_of_mem hi hj _
          have hqr' : ∀ j ∈ rest, (Function.update bufs i ((bufs i).sentTo (bufs i).last) j).Queued d last := by
            intro j hj
            rw [hkeep j hj]
            exact hqr j hj
          obtain ⟨done, hfrom, hunsent, hbytes⟩ := ih hrest hqr' (n - ngxBufSize (bufs i))
          rw [ngxChainUpdateSent_whole htemp hn hle]
          refine ⟨i :: done, SentFrom.cons hi ⟨(bufs i).last, rfl⟩ ?_ hfrom, hunsent, ?_⟩
          · simp [ngxBufSize, NgxBuf.sentTo]
          · rw [hbytes, chainBytes_congr hkeep, hcons, List.drop_append, hlen,
              List.drop_eq_nil_of_le (hlen.trans_le hle), List.nil_append]
        · have hlt : n < ngxBufSize (bufs i) := Nat.lt_of_not_le hle
          have hkeep : ∀ j ∈ rest, Function.update bufs i ((bufs i).sentTo ((bufs i).pos + n)) j = bufs j :=
            fun j hj => update_of_mem hi hj _
          have hpart : ngxBufSize ((bufs i).sentTo ((bufs i).pos + n)) ≠ 0 := by
            simp only [ngxBufSize, htemp, if_true] at hlt
            simp only [ngxBufSize, NgxBuf.sentTo, htemp, if_true]
            omega
          rw [ngxChainUpdateSent_part htemp hn hlt]
          refine ⟨[], ⟨rfl, ?_, ?_, by simp, ?_⟩, ?_, ?_⟩
          · intro j hj
            have hji : j ≠ i := fun heq => hj (heq ▸ List.mem_cons_self)
            exact Function.update_of_ne hji _ _
          · intro j hj
            obtain rfl | hj := List.mem_cons.mp hj
            · exact ⟨_, Function.update_self _ _ _⟩
            · exact ⟨(bufs j).pos, hkeep j hj⟩
          · intro j hj
            obtain rfl | hj := List.mem_cons.mp hj
            · show (Function.update bufs j _ j).Queued d last
              rw [Function.update_self]
              refine ⟨hqi.tag, Or.inl hpart, ?_, hqi.own, hqi.below⟩
              simp only [ngxBufSize, htemp, if_true] at hlt
              show (bufs j).pos + n ≤ (bufs j).last
              omega
            · show (Function.update bufs i _ j).Queued d last
              rw [hkeep j hj]
              exact hqr j hj
          · intro j hj
            cases hj
            show ngxBufSize (Function.update bufs i _ i) ≠ 0
            rw [Function.update_self]
            exact hpart
          · have hnew : (chainBytes mem (Function.update bufs i ((bufs i).sentTo ((bufs i).pos + n))) (i :: rest)).flatten =
                ((bufs i).bytes mem).drop n ++ (chainBytes mem bufs rest).flatten := by
              rw [← NgxBuf.bytes_sentTo htemp n, ← chainBytes_congr hkeep]
              simp [chainBytes]
            rw [hnew, hcons, List.drop_append_of_le_length (by omega)]

theorem SentFrom.trans {bufs₁ bufs₂ : ℕ → NgxBuf} {done₁ rest₁ done₂ rest₂ : List ℕ} (hnodup : chain.Nodup)
    (h₁ : SentFrom d last bufs chain bufs₁ done₁ rest₁) (h₂ : SentFrom d last bufs₁ rest₁ bufs₂ done₂ rest₂) :
    SentFrom d last bufs chain bufs₂ (done₁ ++ done₂) rest₂ := by
  have hdisj : ∀ i ∈ done₁, i ∉ rest₁ := by
    intro i hi hr
    rw [h₁.split] at hnodup
    exact (List.nodup_append.mp hnodup).2.2 i hi i hr rfl
  refine ⟨?_, ?_, ?_, ?_, h₂.queued⟩
  · rw [h₁.split, h₂.split, List.append_assoc]
  · intro i hi
    have hr : i ∉ rest₁ := fun hr => hi (h₁.split ▸ List.mem_append_right _ hr)
    rw [h₂.keep i hr, h₁.keep i hi]
  · intro i hi
    obtain ⟨k, hk⟩ := h₁.same i hi
    by_cases hr : i ∈ rest₁
    · obtain ⟨k', hk'⟩ := h₂.same i hr
      refine ⟨k', ?_⟩
      rw [hk', hk]
      rfl
    · exact ⟨k, by rw [h₂.keep i hr, hk]⟩
  · intro i hi
    obtain hi | hi := List.mem_append.mp hi
    · rw [h₂.keep i (hdisj i hi)]
      exact h₁.done i hi
    · exact h₂.done i hi

/-! ### Datagrams -/

/-- What is unsent after the socket has taken so many datagrams: with each of them go the empty ones that follow. -/
def unsentAfter : ℕ → List (List UInt8) → List (List UInt8)
  | 0, ds => ds
  | _ + 1, [] => []
  | n + 1, _ :: ds => unsentAfter n (ds.dropWhile (·.isEmpty))

def nonEmpty (ds : List (List UInt8)) : List (List UInt8) := ds.filter (!·.isEmpty)

theorem nonEmpty_append (ds ds' : List (List UInt8)) : nonEmpty (ds ++ ds') = nonEmpty ds ++ nonEmpty ds' :=
  List.filter_append ..

theorem ngxChainUpdateSent_skip (bufs : ℕ → NgxBuf) (chain : List ℕ) :
    ngxChainUpdateSent bufs chain 0 = (bufs, chain.dropWhile fun i => ngxBufSpecial (bufs i)) := by
  induction chain with
  | nil => rfl
  | cons i rest ih =>
    by_cases h : ngxBufSpecial (bufs i) = true
    · rw [ngxChainUpdateSent_special h, ih, List.dropWhile_cons, if_pos h]
    · rw [ngxChainUpdateSent_zero (by simpa using h), List.dropWhile_cons, if_neg h]

theorem dropWhile_eq_of_forall {l : List ℕ} {p q : ℕ → Bool} (h : ∀ i ∈ l, p i = q i) :
    l.dropWhile p = l.dropWhile q := by
  induction l with
  | nil => rfl
  | cons i l ih =>
    rw [List.dropWhile_cons, List.dropWhile_cons, h i List.mem_cons_self, ih fun j hj => h j (List.mem_cons_of_mem _ hj)]

theorem NgxBuf.Queued.special_iff {b : NgxBuf} (h : b.Queued d last) (mem : Areas) :
    ngxBufSpecial b = (b.bytes mem).isEmpty := by
  have hlen := b.length_bytes mem
  obtain hsize | hspecial := h.sized
  · have hne : b.bytes mem ≠ [] := fun heq => hsize (by rw [← hlen, heq]; rfl)
    have hspecial : ngxBufSpecial b = false := by
      by_contra hs
      exact hsize (NgxBuf.size_of_special (by simpa using hs))
    simp [hspecial, hne]
  · rw [hspecial, NgxBuf.bytes_eq_nil_of_size (NgxBuf.size_of_special hspecial)]
    rfl

theorem dropWhile_special (hq : ∀ i ∈ chain, (bufs i).Queued d last) (mem : Areas) :
    chainBytes mem bufs (chain.dropWhile fun i => ngxBufSpecial (bufs i)) =
      (chainBytes mem bufs chain).dropWhile (·.isEmpty) := by
  rw [chainBytes, chainBytes, List.dropWhile_map]
  exact congrArg _ (dropWhile_eq_of_forall fun i hi => (hq i hi).special_iff mem)

/-- One datagram is sent: its buffer, and the empty ones after it, are done with. -/
theorem ngxChainUpdateSent_datagram {i : ℕ} {rest : List ℕ} (hi : i ∉ rest) (hq : (bufs i).Queued d last)
    (mem : Areas) :
    ∃ k, ngxBufSize ((bufs i).sentTo k) = 0 ∧
      ngxChainUpdateSent bufs (i :: rest) ((bufs i).bytes mem).length =
        (Function.update bufs i ((bufs i).sentTo k), rest.dropWhile fun j => ngxBufSpecial (bufs j)) := by
  rw [NgxBuf.length_bytes]
  obtain hsize | hspecial := hq.sized
  · have htemp := NgxBuf.temporary_of_size hsize
    refine ⟨(bufs i).last, by simp [ngxBufSize, NgxBuf.sentTo], ?_⟩
    rw [ngxChainUpdateSent_whole htemp hsize le_rfl, Nat.sub_self, ngxChainUpdateSent_skip]
    refine congrArg _ (dropWhile_eq_of_forall fun j hj => ?_)
    rw [update_of_mem hi hj]
  · have hsize := NgxBuf.size_of_special hspecial
    refine ⟨(bufs i).pos, hsize, ?_⟩
    have hself : Function.update bufs i ((bufs i).sentTo (bufs i).pos) = bufs := Function.update_eq_self i bufs
    rw [hsize, ngxChainUpdateSent_special hspecial, ngxChainUpdateSent_skip, hself]

/-- The datagram at the head is sent, and the empty ones after it are done with as well. -/
theorem ngxUdpUnixSendmsgChain_succ {i : ℕ} {rest : List ℕ} (hnodup : (i :: rest).Nodup)
    (hq : ∀ j ∈ i :: rest, (bufs j).Queued d last) (hflush : (bufs i).flush = true) (mem : Areas) :
    ∃ bufs₁ done₁ rest₁, SentFrom d last bufs (i :: rest) bufs₁ done₁ rest₁ ∧ (∀ j ∈ rest₁, bufs₁ j = bufs j) ∧
      nonEmpty (chainBytes mem bufs done₁) = nonEmpty [(bufs i).bytes mem] ∧
      chainBytes mem bufs rest₁ = (chainBytes mem bufs rest).dropWhile (·.isEmpty) ∧
      ∀ n, ngxUdpUnixSendmsgChain mem (n + 1) bufs (i :: rest) =
        { ngxUdpUnixSendmsgChain mem n bufs₁ rest₁ with
          sent := (bufs i).bytes mem :: (ngxUdpUnixSendmsgChain mem n bufs₁ rest₁).sent } := by
  obtain ⟨hi, -⟩ := List.nodup_cons.mp hnodup
  have hqr : ∀ j ∈ rest, (bufs j).Queued d last := fun j hj => hq j (List.mem_cons_of_mem _ hj)
  obtain ⟨k, hsize, hsent⟩ := ngxChainUpdateSent_datagram hi (hq i List.mem_cons_self) mem
  have hkeep : ∀ j ∈ rest, Function.update bufs i ((bufs i).sentTo k) j = bufs j := fun j hj => update_of_mem hi hj _
  have hdrop : ∀ j ∈ rest.dropWhile fun j => ngxBufSpecial (bufs j), j ∈ rest :=
    fun j hj => (List.dropWhile_sublist _).subset hj
  have htake : ∀ j ∈ rest.takeWhile fun j => ngxBufSpecial (bufs j), j ∈ rest :=
    fun j hj => (List.takeWhile_sublist _).subset hj
  have hskipped : nonEmpty (chainBytes mem bufs (rest.takeWhile fun j => ngxBufSpecial (bufs j))) = [] := by
    refine List.filter_eq_nil_iff.mpr fun ds hds => ?_
    obtain ⟨j, hj, rfl⟩ := List.mem_map.mp hds
    have hspecial := List.mem_takeWhile_imp hj
    rw [(hqr j (htake j hj)).special_iff mem] at hspecial
    simp [hspecial]
  refine ⟨Function.update bufs i ((bufs i).sentTo k), i :: rest.takeWhile fun j => ngxBufSpecial (bufs j),
    rest.dropWhile fun j => ngxBufSpecial (bufs j), ?_, fun j hj => hkeep j (hdrop j hj), ?_,
    dropWhile_special hqr mem, fun n => ?_⟩
  · refine SentFrom.cons hi ⟨k, rfl⟩ hsize ⟨List.takeWhile_append_dropWhile.symm, fun _ _ => rfl,
      fun j _ => ⟨_, rfl⟩, ?_, ?_⟩
    · intro j hj
      have hspecial := List.mem_takeWhile_imp hj
      rw [hkeep j (htake j hj)]
      exact NgxBuf.size_of_special hspecial
    · intro j hj
      rw [hkeep j (hdrop j hj)]
      exact hqr j (hdrop j hj)
  · have hcons : chainBytes mem bufs (i :: rest.takeWhile fun j => ngxBufSpecial (bufs j)) =
        [(bufs i).bytes mem] ++ chainBytes mem bufs (rest.takeWhile fun j => ngxBufSpecial (bufs j)) := rfl
    rw [hcons, nonEmpty_append, hskipped, List.append_nil]
  · have hiovec : ngxUdpOutputChainToIovec mem bufs (i :: rest) = some ((bufs i).bytes mem) := by
      rw [ngxUdpOutputChainToIovec, if_pos (by simp [hflush])]
    rw [ngxUdpUnixSendmsgChain]
    simp only [hiovec, hsent]

/-- The buffers of a datagram chain are done with one datagram after the other; those that remain are untouched. -/
theorem ngxUdpUnixSendmsgChain_spec (hnodup : chain.Nodup) (hq : ∀ i ∈ chain, (bufs i).Queued d last)
    (hflush : ∀ i ∈ chain, (bufs i).flush = true) (n : ℕ) :
    ∃ done, SentFrom d last bufs chain (ngxUdpUnixSendmsgChain mem n bufs chain).bufs done
        (ngxUdpUnixSendmsgChain mem n bufs chain).chain ∧
      (∀ i ∈ (ngxUdpUnixSendmsgChain mem n bufs chain).chain, (ngxUdpUnixSendmsgChain mem n bufs chain).bufs i = bufs i) ∧
      nonEmpty (ngxUdpUnixSendmsgChain mem n bufs chain).sent = nonEmpty (chainBytes mem bufs done) ∧
      chainBytes mem bufs (ngxUdpUnixSendmsgChain mem n bufs chain).chain =
        unsentAfter n (chainBytes mem bufs chain) := by
  induction n generalizing bufs chain with
  | zero => exact ⟨[], SentFrom.refl hq, fun _ _ => rfl, rfl, rfl⟩
  | succ n ih =>
    cases chain with
    | nil => exact ⟨[], SentFrom.refl hq, fun _ _ => rfl, rfl, rfl⟩
    | cons i rest =>
      obtain ⟨bufs₁, done₁, rest₁, hone, hkeep, hdone, hrest, hsucc⟩ :=
        ngxUdpUnixSendmsgChain_succ hnodup hq (hflush i List.mem_cons_self) mem
      have hsub : ∀ j ∈ rest₁, j ∈ i :: rest := fun j hj => hone.split ▸ List.mem_append_right _ hj
      have hnodup₁ : rest₁.Nodup := by
        rw [hone.split] at hnodup
        exact (List.nodup_append.mp hnodup).2.1
      have hflush₁ : ∀ j ∈ rest₁, (bufs₁ j).flush = true := by
        intro j hj
        rw [hkeep j hj]
        exact hflush j (hsub j hj)
      obtain ⟨done, hfrom, hsame, hsent, hunsent⟩ := ih hnodup₁ hone.queued hflush₁
      have hmem : ∀ j ∈ (ngxUdpUnixSendmsgChain mem n bufs₁ rest₁).chain, j ∈ rest₁ := by
        intro j hj
        rw [hfrom.split]
        exact List.mem_append_right _ hj
      have hmem' : ∀ j ∈ done, j ∈ rest₁ := by
        intro j hj
        rw [hfrom.split]
        exact List.mem_append_left _ hj
      rw [hsucc]
      refine ⟨done₁ ++ done, hone.trans hnodup hfrom, ?_, ?_, ?_⟩
      · intro j hj
        exact (hsame j hj).trans (hkeep j (hmem j hj))
      · have hcons : ((bufs i).bytes mem :: (ngxUdpUnixSendmsgChain mem n bufs₁ rest₁).sent) =
            [(bufs i).bytes mem] ++ (ngxUdpUnixSendmsgChain mem n bufs₁ rest₁).sent := rfl
        rw [hcons, nonEmpty_append, hsent, chainBytes_append, nonEmpty_append, hdone,
          chainBytes_congr fun j hj => hkeep j (hmem' j hj)]
      · rw [chainBytes_congr fun j hj => hkeep j hj] at hunsent
        rw [chainBytes_congr fun j hj => hkeep j (hmem j hj), hrest] at hunsent
        exact hunsent

end NginxDtls
