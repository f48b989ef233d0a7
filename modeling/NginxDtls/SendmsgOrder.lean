import NginxDtls.Sendmsg
import Mathlib.Data.List.TakeWhile

/-! When the two ways of walking a chain agree. A datagram whose last buffer in memory has data is gone after it was
sent, together with the special buffers that follow; one that ends with an empty buffer in memory keeps this buffer,
which is sent as an empty datagram for ever. -/

namespace NginxDtls.Sendmsg

variable {mem : ℕ → UInt8}

/-! ### Parts -/

theorem bytesAt_append (mem : ℕ → UInt8) (base len len' : ℕ) :
    bytesAt mem base len ++ bytesAt mem (base + len) len' = bytesAt mem base (len + len') := by
  simp only [bytesAt, ← List.map_append, List.range'_append_1]

theorem payload_cons (mem : ℕ → UInt8) (iov : ℕ × ℕ) (iovs : List (ℕ × ℕ)) :
    payload mem (iov :: iovs) = payload mem iovs ++ bytesAt mem iov.1 iov.2 := by
  simp [payload]

/-- The parts with one more buffer in memory. -/
def pushBuf (iovs : List (ℕ × ℕ)) (b : Buf) : List (ℕ × ℕ) :=
  match iovs with
  | (base, len) :: more =>
    if base + len = b.pos then (base, len + (b.last - b.pos)) :: more else (b.pos, b.last - b.pos) :: iovs
  | [] => [(b.pos, b.last - b.pos)]

theorem pushBuf_payload (iovs : List (ℕ × ℕ)) {b : Buf} (hb : b.inMemory = true) :
    payload mem (pushBuf iovs b) = payload mem iovs ++ bytesAt mem b.pos (ngxBufSize b) := by
  have hsize : ngxBufSize b = b.last - b.pos := by rw [ngxBufSize, if_pos hb]
  rw [hsize]
  unfold pushBuf
  split
  · split
    · rename_i base len more heq
      rw [payload_cons, payload_cons, ← bytesAt_append, heq, List.append_assoc]
    · rw [payload_cons]
  · rw [payload_cons]

theorem pushBuf_size (iovs : List (ℕ × ℕ)) {b : Buf} (hb : b.inMemory = true) :
    ((pushBuf iovs b).map Prod.snd).sum = (iovs.map Prod.snd).sum + ngxBufSize b := by
  rw [ngxBufSize, if_pos hb]
  unfold pushBuf
  split
  · split <;> simp <;> omega
  · simp

theorem pushBuf_length (iovs : List (ℕ × ℕ)) (b : Buf) : (pushBuf iovs b).length ≤ iovs.length + 1 := by
  unfold pushBuf
  split
  · split <;> simp
  · simp

theorem special_of_inMemory {b : Buf} (hb : b.inMemory = true) : ngxBufSpecial b = false := by
  simp [ngxBufSpecial, hb]

theorem inMemory_of_special {b : Buf} (hb : ngxBufSpecial b = true) : b.inMemory = false := by
  simp only [ngxBufSpecial, Bool.and_eq_true, Bool.not_eq_true'] at hb
  exact hb.2

theorem size_of_special {b : Buf} (hb : ngxBufSpecial b = true) : ngxBufSize b = 0 := by
  simp [ngxBufSize, inMemory_of_special hb]

/-- A buffer in memory becomes a part as long as there is room for one. -/
theorem iovec_inMemory {b : Buf} {rest : List Buf} {iovs : List (ℕ × ℕ)} (hb : b.inMemory = true)
    (hroom : iovs.length < ngxIovsPreallocate) :
    ngxUdpOutputChainToIovec (b :: rest) iovs =
      if b.ends then .datagram (pushBuf iovs b) rest else ngxUdpOutputChainToIovec rest (pushBuf iovs b) := by
  rw [ngxUdpOutputChainToIovec, if_neg (by simp [special_of_inMemory hb]), if_neg (by simp [hb])]
  cases iovs with
  | nil => rfl
  | cons iov more =>
    dsimp only [pushBuf]
    split
    · rfl
    · rw [if_neg hroom.ne]

/-- The parts of a datagram are its buffers in memory. -/
theorem iovec_run {run rest : List Buf} {e : Buf} {iovs : List (ℕ × ℕ)} (hopen : ∀ b ∈ run, b.ends = false)
    (hend : e.ends = true) (hknown : ∀ b ∈ run ++ [e], b.Known)
    (hparts : iovs.length + (run ++ [e]).countP (·.inMemory) ≤ ngxIovsPreallocate) :
    ∃ iovs', ngxUdpOutputChainToIovec (run ++ e :: rest) iovs = .datagram iovs' rest ∧
      payload mem iovs' = payload mem iovs ++ (run ++ [e]).flatMap (fun b => bytesAt mem b.pos (ngxBufSize b)) ∧
      (iovs'.map Prod.snd).sum = (iovs.map Prod.snd).sum + ((run ++ [e]).map ngxBufSize).sum := by
  induction run generalizing iovs with
  | nil =>
    rw [List.nil_append] at hknown hparts ⊢
    obtain ⟨hb, -⟩ | hspecial := hknown e (by simp)
    · rw [List.countP_singleton, if_pos hb] at hparts
      rw [List.nil_append, iovec_inMemory hb (by omega), if_pos hend]
      exact ⟨_, rfl, by simp [pushBuf_payload iovs hb], by simp [pushBuf_size iovs hb]⟩
    · rw [List.nil_append, ngxUdpOutputChainToIovec, if_pos hspecial, if_pos hend]
      exact ⟨_, rfl, by simp [size_of_special hspecial, bytesAt], by simp [size_of_special hspecial]⟩
  | cons b run ih =>
    have hopen' : ∀ b ∈ run, b.ends = false := fun b hb => hopen b (List.mem_cons_of_mem _ hb)
    have hknown' : ∀ b ∈ run ++ [e], b.Known := fun b hb => hknown b (List.mem_cons_of_mem _ hb)
    have hcount := @List.countP_cons Buf (fun b => b.inMemory) b (run ++ [e])
    rw [List.cons_append] at hparts ⊢
    obtain ⟨hb, -⟩ | hspecial := hknown b List.mem_cons_self
    · rw [hcount, if_pos hb] at hparts
      have hlength := pushBuf_length iovs b
      obtain ⟨iovs', hiovec, hpayload, hsize⟩ := @ih (pushBuf iovs b) hopen' hknown' (by omega)
      rw [List.cons_append, iovec_inMemory hb (by omega), if_neg (by simp [hopen b List.mem_cons_self])]
      refine ⟨iovs', hiovec, ?_, ?_⟩
      · rw [hpayload, pushBuf_payload iovs hb, List.flatMap_cons, List.append_assoc]
      · rw [hsize, pushBuf_size iovs hb, List.map_cons, List.sum_cons]
        omega
    · rw [hcount, if_neg (by simp [inMemory_of_special hspecial])] at hparts
      obtain ⟨iovs', hiovec, hpayload, hsize⟩ := @ih iovs hopen' hknown' (by omega)
      rw [List.cons_append, ngxUdpOutputChainToIovec, if_pos hspecial, if_neg (by simp [hopen b List.mem_cons_self])]
      refine ⟨iovs', hiovec, ?_, ?_⟩
      · rw [hpayload, List.flatMap_cons, size_of_special hspecial]
        simp [bytesAt]
      · rw [hsize, List.map_cons, List.sum_cons, size_of_special hspecial]
        omega

theorem iovec_datagram (mem : ℕ → UInt8) (D : Datagram) (rest : List Buf) :
    ∃ iovs, ngxUdpOutputChainToIovec (D.bufs ++ rest) [] = .datagram iovs rest ∧ payload mem iovs = D.bytes mem ∧
      (iovs.map Prod.snd).sum = (D.bufs.map ngxBufSize).sum := by
  obtain ⟨iovs, hiovec, hpayload, hsize⟩ := @iovec_run mem D.run rest D.last [] D.run_open D.last_ends D.known
    (by simpa using D.parts)
  refine ⟨iovs, ?_, ?_, ?_⟩
  · rw [Datagram.bufs, List.append_assoc, List.singleton_append, hiovec]
  · rw [hpayload]
    rfl
  · rw [hsize]
    simp [Datagram.bufs]

/-! ### Advancing the chain -/

theorem updateSent_zero (l : List Buf) : ngxChainUpdateSent l 0 = l.dropWhile ngxBufSpecial := by
  induction l with
  | nil => rfl
  | cons b l ih =>
    rw [ngxChainUpdateSent, List.dropWhile_cons]
    split
    · exact ih
    · rw [if_pos rfl]

/-- The last buffer in memory of a run, if there is one, has data. -/
def CleanRun (l : List Buf) : Prop := ∀ b, (l.filter (·.inMemory)).getLast? = some b → ngxBufSize b ≠ 0

theorem CleanRun.tail {b : Buf} {l : List Buf} (h : CleanRun (b :: l)) : CleanRun l := by
  intro e he
  refine h e ?_
  rw [List.filter_cons]
  split
  · rw [List.getLast?_cons, he, Option.getD_some]
  · exact he

/-- A run that has buffers in memory, the last of them with data, has data. -/
theorem CleanRun.size_ne {l : List Buf} (h : CleanRun l) {b : Buf} (hb : b ∈ l) (hmem : b.inMemory = true) :
    (l.map ngxBufSize).sum ≠ 0 := by
  have hne : l.filter (·.inMemory) ≠ [] := List.ne_nil_of_mem (List.mem_filter.mpr ⟨hb, hmem⟩)
  have hlast := h _ (List.getLast?_eq_some_getLast hne)
  have hin : (l.filter (·.inMemory)).getLast hne ∈ l := (List.mem_filter.mp (List.getLast_mem hne)).1
  intro hsum
  exact hlast (List.sum_eq_zero_iff.mp hsum _ (List.mem_map_of_mem hin))

theorem updateSent_clean {l : List Buf} (hknown : ∀ b ∈ l, b.Known) (h : CleanRun l) (rest : List Buf) :
    ngxChainUpdateSent (l ++ rest) (l.map ngxBufSize).sum = rest.dropWhile ngxBufSpecial := by
  induction l with
  | nil => exact updateSent_zero rest
  | cons b l ih =>
    have htail := ih (fun e he => hknown e (List.mem_cons_of_mem _ he)) h.tail
    rw [List.cons_append, ngxChainUpdateSent, List.map_cons, List.sum_cons]
    obtain ⟨hb, -⟩ | hspecial := hknown b List.mem_cons_self
    · have hne := h.size_ne List.mem_cons_self hb
      rw [List.map_cons, List.sum_cons] at hne
      rw [if_neg (by simp [special_of_inMemory hb]), if_neg hne, if_pos (Nat.le_add_right _ _), Nat.add_sub_cancel_left]
      exact htail
    · rw [if_pos hspecial, size_of_special hspecial, Nat.zero_add]
      exact htail

theorem CleanRun.cons {b : Buf} {l : List Buf} (h : CleanRun l) (hsum : ((b :: l).map ngxBufSize).sum ≠ 0) :
    CleanRun (b :: l) := by
  intro e he
  rw [List.filter_cons] at he
  split at he
  · by_cases hnone : l.filter (·.inMemory) = []
    · rw [hnone] at he
      cases he
      -- the buffers behind have no data, so this one has all of it
      intro hzero
      refine hsum (List.sum_eq_zero_iff.mpr fun n hn => ?_)
      obtain ⟨d, hd, rfl⟩ := List.mem_map.mp hn
      obtain rfl | hd := List.mem_cons.mp hd
      · exact hzero
      · rw [ngxBufSize, if_neg (List.filter_eq_nil_iff.mp hnone d hd)]
    · rw [List.getLast?_cons_of_ne_nil hnone] at he
      exact h e he
  · exact h e he

/-- The empty buffers in memory at the end of a run stay, from the first of them on. -/
theorem updateSent_stuck {l : List Buf} (hknown : ∀ b ∈ l, b.Known) (h : ¬ CleanRun l) (rest : List Buf) :
    ∃ pre b post, l = pre ++ b :: post ∧ b.inMemory = true ∧ (∀ e ∈ b :: post, ngxBufSize e = 0) ∧
      ngxChainUpdateSent (l ++ rest) (l.map ngxBufSize).sum = b :: post ++ rest := by
  induction l with
  | nil => exact absurd (fun b hb => by simp at hb) h
  | cons b l ih =>
    have hrest (hl : ¬ CleanRun l)
        (hupdate : ngxChainUpdateSent (b :: l ++ rest) ((b :: l).map ngxBufSize).sum =
          ngxChainUpdateSent (l ++ rest) (l.map ngxBufSize).sum) :
        ∃ pre e post, b :: l = pre ++ e :: post ∧ e.inMemory = true ∧ (∀ d ∈ e :: post, ngxBufSize d = 0) ∧
          ngxChainUpdateSent (b :: l ++ rest) ((b :: l).map ngxBufSize).sum = e :: post ++ rest := by
      obtain ⟨pre, e, post, heq, he, hzero, hstuck⟩ := ih (fun e he => hknown e (List.mem_cons_of_mem _ he)) hl
      exact ⟨b :: pre, e, post, by rw [heq, List.cons_append], he, hzero, by rw [hupdate, hstuck]⟩
    obtain ⟨hb, -⟩ | hspecial := hknown b List.mem_cons_self
    · have hnot : ¬ ngxBufSpecial b = true := by simp [special_of_inMemory hb]
      by_cases hsum : ((b :: l).map ngxBufSize).sum = 0
      · refine ⟨[], b, l, rfl, hb, fun e he => ?_, ?_⟩
        · exact List.sum_eq_zero_iff.mp hsum _ (List.mem_map_of_mem he)
        · rw [hsum, updateSent_zero, List.cons_append, List.dropWhile_cons_of_neg hnot]
      · refine hrest (fun hl => h (hl.cons hsum)) ?_
        rw [List.cons_append, ngxChainUpdateSent, if_neg hnot, if_neg hsum, List.map_cons, List.sum_cons,
          if_pos (Nat.le_add_right _ _), Nat.add_sub_cancel_left]
    · refine hrest (fun hl => h fun e he => hl e ?_) ?_
      · rwa [List.filter_cons, if_neg (by simp [inMemory_of_special hspecial])] at he
      · rw [List.cons_append, ngxChainUpdateSent, if_pos hspecial, List.map_cons, List.sum_cons,
          size_of_special hspecial, Nat.zero_add]

/-! ### What is left of the next datagrams -/

namespace Datagram

/-- The datagram has a buffer in memory. -/
def Present (D : Datagram) : Prop := ∃ b ∈ D.bufs, b.inMemory = true

instance (D : Datagram) : Decidable D.Present := by
  unfold Present
  infer_instance

/-- A datagram without the special buffers that it begins with. -/
def trim (D : Datagram) : Datagram where
  run := D.run.dropWhile ngxBufSpecial
  last := D.last
  run_open b hb := D.run_open b ((List.dropWhile_sublist _).subset hb)
  last_ends := D.last_ends
  known b hb := D.known b (((List.dropWhile_sublist _).append_right _).subset hb)
  parts := le_trans ((List.dropWhile_sublist _).append_right _).countP_le D.parts

theorem special_of_absent {D : Datagram} (h : ¬ D.Present) : ∀ b ∈ D.bufs, ngxBufSpecial b = true := by
  intro b hb
  obtain ⟨hmem, -⟩ | hspecial := D.known b hb
  · exact absurd ⟨b, hb, hmem⟩ h
  · exact hspecial

theorem bufs_trim {D : Datagram} (h : D.Present) (rest : List Buf) :
    (D.bufs ++ rest).dropWhile ngxBufSpecial = D.trim.bufs ++ rest := by
  rw [bufs, List.append_assoc, List.dropWhile_append]
  split
  case isTrue hempty =>
    have hrun := List.isEmpty_iff.mp hempty
    have hlast : ¬ ngxBufSpecial D.last = true := by
      intro hspecial
      obtain ⟨b, hb, hmem⟩ := h
      have hall : ∀ b ∈ D.bufs, ngxBufSpecial b = true := by
        intro b hb
        obtain hb | hb := List.mem_append.mp hb
        · exact List.dropWhile_eq_nil_iff.mp hrun b hb
        · rwa [List.mem_singleton.mp hb]
      rw [inMemory_of_special (hall b hb)] at hmem
      cases hmem
    rw [List.singleton_append, List.dropWhile_cons_of_neg hlast]
    simp [bufs, trim, hrun]
  case isFalse => rw [bufs, trim, List.append_assoc]

/-- The special buffers at the beginning of a datagram say nothing about its data. -/
theorem filter_trim (D : Datagram) : D.trim.bufs.filter (·.inMemory) = D.bufs.filter (·.inMemory) := by
  have hdrop (l : List Buf) : (l.dropWhile ngxBufSpecial).filter (·.inMemory) = l.filter (·.inMemory) := by
    induction l with
    | nil => rfl
    | cons b l ih =>
      rw [List.dropWhile_cons]
      split
      case isTrue hspecial => rw [ih, List.filter_cons, if_neg (by simp [inMemory_of_special hspecial])]
      case isFalse => rfl
  rw [bufs, bufs, List.filter_append, List.filter_append, ← hdrop D.run]
  rfl

theorem bytes_eq (mem : ℕ → UInt8) (D : Datagram) :
    D.bytes mem = (D.bufs.filter (·.inMemory)).flatMap fun b => bytesAt mem b.pos (ngxBufSize b) := by
  rw [bytes]
  induction D.bufs with
  | nil => rfl
  | cons b l ih =>
    rw [List.filter_cons, List.flatMap_cons, ih]
    split
    · rw [List.flatMap_cons]
    case isFalse hb => simp [ngxBufSize, hb, bytesAt]

theorem bytes_trim (mem : ℕ → UInt8) (D : Datagram) : D.trim.bytes mem = D.bytes mem := by
  rw [bytes_eq, bytes_eq, filter_trim]

theorem clean_trim {D : Datagram} : D.trim.Clean ↔ D.Clean := by
  rw [Clean, Clean, filter_trim]

theorem suffix_eq {D : Datagram} {pre post : List Buf} {b : Buf} (h : D.bufs = pre ++ b :: post) :
    (b :: post).dropLast ++ [D.last] = b :: post := by
  have hlast : D.bufs.getLast? = some D.last := by rw [bufs, List.getLast?_concat]
  rw [h, List.getLast?_append_of_ne_nil _ (List.cons_ne_nil b post)] at hlast
  exact List.dropLast_append_getLast? _ hlast

/-- The end of a datagram, from a buffer on, as a datagram. -/
def ofSuffix (D : Datagram) {pre post : List Buf} {b : Buf} (h : D.bufs = pre ++ b :: post) : Datagram :=
  have hsub : ((b :: post).dropLast ++ [D.last]).Sublist D.bufs := by
    rw [suffix_eq h, h]
    exact List.sublist_append_right _ _
  have hrun : D.run = pre ++ (b :: post).dropLast := by
    rw [← List.dropLast_append_of_ne_nil (List.cons_ne_nil b post), ← h, bufs, List.dropLast_concat]
  { run := (b :: post).dropLast
    last := D.last
    run_open := fun e he => D.run_open e (by rw [hrun]; exact List.mem_append_right _ he)
    last_ends := D.last_ends
    known := fun e he => D.known e (hsub.subset he)
    parts := le_trans hsub.countP_le D.parts }

theorem bufs_ofSuffix {D : Datagram} {pre post : List Buf} {b : Buf} (h : D.bufs = pre ++ b :: post) :
    (D.ofSuffix h).bufs = b :: post := @suffix_eq D pre post b h

end Datagram

/-- The datagrams of a chain without the special buffers that it begins with. -/
def dropSpecials : List Datagram → List Datagram
  | [] => []
  | D :: Ds => if D.Present then D.trim :: Ds else dropSpecials Ds

theorem chainOf_dropSpecials (Ds : List Datagram) :
    (chainOf Ds).dropWhile ngxBufSpecial = chainOf (dropSpecials Ds) := by
  induction Ds with
  | nil => rfl
  | cons D Ds ih =>
    rw [chainOf, List.flatMap_cons, dropSpecials]
    split
    case isTrue h => exact Datagram.bufs_trim h _
    case isFalse h =>
      rw [List.dropWhile_append_of_pos (Datagram.special_of_absent h)]
      exact ih

theorem length_dropSpecials (Ds : List Datagram) : (dropSpecials Ds).length ≤ Ds.length := by
  induction Ds with
  | nil => exact le_rfl
  | cons D Ds ih =>
    rw [dropSpecials]
    split
    · exact le_rfl
    · exact ih.trans (Nat.le_succ _)

/-- A chain begins with special buffers that end no datagram exactly when its first datagram is still there. -/
theorem dropSpecials_length_eq {D : Datagram} {Ds : List Datagram}
    (h : (dropSpecials (D :: Ds)).length = (D :: Ds).length) : D.Present := by
  by_contra hD
  have hle := length_dropSpecials Ds
  rw [dropSpecials, if_neg hD, List.length_cons] at h
  omega


theorem chainOf_cons (D : Datagram) (Ds : List Datagram) : chainOf (D :: Ds) = D.bufs ++ chainOf Ds := by
  rw [chainOf, List.flatMap_cons, chainOf]

theorem chainOf_eq_nil {Ds : List Datagram} (h : chainOf Ds = []) : Ds = [] := by
  cases Ds with
  | nil => rfl
  | cons D Ds => simp [chainOf, Datagram.bufs] at h

/-! ### Sending -/

/-- The chain after its first datagram was sent. -/
def afterSend (D : Datagram) (Ds : List Datagram) : List Buf :=
  ngxChainUpdateSent (chainOf (D :: Ds)) (D.bufs.map ngxBufSize).sum

theorem afterSend_clean {D : Datagram} (h : D.Clean) (Ds : List Datagram) :
    afterSend D Ds = chainOf (dropSpecials Ds) := by
  rw [← chainOf_dropSpecials, afterSend, chainOf, List.flatMap_cons]
  exact updateSent_clean D.known h _

/-- A datagram that is not clean leaves an empty one, which leaves itself. -/
theorem afterSend_stuck {D : Datagram} (h : ¬ D.Clean) (Ds : List Datagram) :
    ∃ E : Datagram, afterSend D Ds = chainOf (E :: Ds) ∧ ¬ E.Clean := by
  obtain ⟨pre, b, post, heq, hb, hzero, hupdate⟩ := updateSent_stuck D.known h (chainOf Ds)
  refine ⟨D.ofSuffix heq, ?_, fun hclean => ?_⟩
  · rw [afterSend, chainOf, List.flatMap_cons, chainOf, List.flatMap_cons, Datagram.bufs_ofSuffix heq]
    exact hupdate
  · have hclean : CleanRun (b :: post) := by
      rw [← Datagram.bufs_ofSuffix heq]
      exact hclean
    refine hclean.size_ne List.mem_cons_self hb (List.sum_eq_zero_iff.mpr fun n hn => ?_)
    obtain ⟨e, he, rfl⟩ := List.mem_map.mp hn
    exact hzero e he

theorem loop_zero (limit send : ℕ) (Ds : List Datagram) :
    sendmsgLoop mem limit 0 send (chainOf Ds) = some ([], chainOf Ds) := by
  cases Ds with
  | nil => rfl
  | cons D Ds =>
    obtain ⟨iovs, hiovec, -, -⟩ := iovec_datagram mem D (chainOf Ds)
    rw [sendmsgLoop, chainOf_cons, hiovec]

theorem loop_succ (limit n send : ℕ) (D : Datagram) (Ds : List Datagram) :
    sendmsgLoop mem limit (n + 1) send (chainOf (D :: Ds)) =
      if limit ≤ send + (D.bufs.map ngxBufSize).sum ∨ afterSend D Ds = [] then some ([D.bytes mem], afterSend D Ds)
      else (sendmsgLoop mem limit n (send + (D.bufs.map ngxBufSize).sum) (afterSend D Ds)).map
        fun res => (D.bytes mem :: res.1, res.2) := by
  obtain ⟨iovs, hiovec, hpayload, hsize⟩ := iovec_datagram mem D (chainOf Ds)
  rw [sendmsgLoop, chainOf_cons, hiovec]
  dsimp only
  rw [hpayload, hsize, ← chainOf_cons]
  rfl

theorem Sendable.drop {D : Datagram} {Ds : List Datagram} (h : Sendable (D :: Ds)) : Sendable (dropSpecials Ds) := by
  cases Ds with
  | nil => exact h.imp (fun _ _ hE => by cases hE) (fun _ _ hE => by cases hE)
  | cons E Ds =>
    have hE : E.Present := h.2 E List.mem_cons_self
    rw [dropSpecials, if_pos hE]
    refine ⟨fun F hF => ?_, fun F hF => h.2 F (List.mem_cons_of_mem _ hF)⟩
    obtain rfl | hF := List.mem_cons.mp hF
    · exact Datagram.clean_trim.mpr (h.1 E (by simp))
    · exact h.1 F (by simp [hF])

theorem Sendable.bytes_drop {D : Datagram} {Ds : List Datagram} (h : Sendable (D :: Ds)) :
    (dropSpecials Ds).map (Datagram.bytes mem) = Ds.map (Datagram.bytes mem) := by
  cases Ds with
  | nil => rfl
  | cons E Ds =>
    have hE : E.Present := h.2 E List.mem_cons_self
    rw [dropSpecials, if_pos hE, List.map_cons, List.map_cons, E.bytes_trim]

/-- What was sent and the datagrams that are left are the datagrams of the chain. -/
def Splits (mem : ℕ → UInt8) (Ds : List Datagram) (res : List (List UInt8) × List Buf) : Prop :=
  ∃ Ts, res.2 = chainOf Ts ∧ Sendable Ts ∧ res.1 ++ Ts.map (Datagram.bytes mem) = Ds.map (Datagram.bytes mem)

theorem loop_splits {Ds : List Datagram} (h : Sendable Ds) (limit n send : ℕ) :
    ∃ res, sendmsgLoop mem limit n send (chainOf Ds) = some res ∧ Splits mem Ds res ∧
      (n ≠ 0 → Ds ≠ [] → res.1 ≠ []) := by
  induction n generalizing send Ds with
  | zero => exact ⟨_, loop_zero limit send Ds, ⟨Ds, rfl, h, rfl⟩, fun hn => absurd rfl hn⟩
  | succ n ih =>
    cases Ds with
    | nil => exact ⟨([], []), rfl, ⟨[], rfl, h, rfl⟩, fun _ hne => absurd rfl hne⟩
    | cons D Ds =>
      rw [loop_succ, afterSend_clean (h.1 D List.mem_cons_self)]
      split
      · refine ⟨_, rfl, ⟨dropSpecials Ds, rfl, h.drop, ?_⟩, fun _ _ => List.cons_ne_nil _ _⟩
        rw [h.bytes_drop, List.map_cons, List.singleton_append]
      · obtain ⟨res, hres, ⟨Ts, hchain, hTs, hbytes⟩, -⟩ := ih h.drop (send + (D.bufs.map ngxBufSize).sum)
        rw [hres, Option.map_some]
        refine ⟨_, rfl, ⟨Ts, hchain, hTs, ?_⟩, fun _ _ => List.cons_ne_nil _ _⟩
        rw [List.cons_append, hbytes, h.bytes_drop, List.map_cons]

theorem call_splits {Ds : List Datagram} (h : Sendable Ds) (call : Call) :
    ∃ res, ngxUdpUnixSendmsgChain mem call (chainOf Ds) = some res ∧ Splits mem Ds res ∧
      (call.ready = true → call.takes ≠ 0 → Ds ≠ [] → res.1 ≠ []) := by
  rw [ngxUdpUnixSendmsgChain]
  split
  case isTrue hready =>
    exact ⟨_, rfl, ⟨Ds, rfl, h, rfl⟩, fun htrue => by simp [htrue] at hready⟩
  case isFalse =>
    obtain ⟨res, hres, hsplits, hsome⟩ := loop_splits h
      (if call.limit = 0 ∨ ngxSendLimit < call.limit then ngxSendLimit else call.limit) call.takes 0
    exact ⟨res, hres, hsplits, fun _ => hsome⟩

theorem calls_splits {Ds : List Datagram} (h : Sendable Ds) (calls : List Call) :
    ∃ res, sendmsgCalls mem calls (chainOf Ds) = some res ∧ Splits mem Ds res := by
  induction calls generalizing Ds with
  | nil => exact ⟨_, rfl, Ds, rfl, h, rfl⟩
  | cons call calls ih =>
    obtain ⟨res, hres, ⟨Ts, hchain, hTs, hbytes⟩, -⟩ := @call_splits mem Ds h call
    obtain ⟨more, hmore, ⟨Rs, hrest, hRs, hall⟩⟩ := ih hTs
    refine ⟨(res.1 ++ more.1, more.2), ?_, Rs, hrest, hRs, ?_⟩
    · rw [sendmsgCalls, hres, Option.bind_eq_bind, Option.bind_some, hchain, hmore]
      rfl
    · rw [List.append_assoc, hall, hbytes]

theorem Sendable.delivers {Ds : List Datagram} (h : Sendable Ds) (calls : List Call) : Delivers mem Ds calls := by
  obtain ⟨res, hres, Ts, hchain, hTs, hbytes⟩ := @calls_splits mem Ds h calls
  refine ⟨⟨res, hres⟩, fun res' hres' => ?_, fun res' hres' hnil => ?_, fun res' hres' hne call hready htakes => ?_⟩
  · obtain rfl := Option.some.inj (hres.symm.trans hres')
    exact ⟨_, hbytes⟩
  · obtain rfl := Option.some.inj (hres.symm.trans hres')
    rw [hchain] at hnil
    rwa [chainOf_eq_nil hnil, List.map_nil, List.append_nil] at hbytes
  · obtain rfl := Option.some.inj (hres.symm.trans hres')
    obtain ⟨sent, hsent, -, hsome⟩ := @call_splits mem Ts hTs call
    refine ⟨sent, by rw [hchain, hsent], hsome hready htakes fun hTs => hne ?_⟩
    rw [hchain, hTs]
    rfl

/-! ### What goes wrong -/

/-- A call that sends one datagram. -/
def oneDatagram : Call := ⟨true, 0, 1⟩

theorem calls_cons {D : Datagram} {Ds Ts : List Datagram} (h : afterSend D Ds = chainOf Ts) (calls : List Call)
    {res : List (List UInt8) × List Buf} (hres : sendmsgCalls mem calls (chainOf Ts) = some res) :
    sendmsgCalls mem (oneDatagram :: calls) (chainOf (D :: Ds)) = some (D.bytes mem :: res.1, res.2) := by
  have hcall : ngxUdpUnixSendmsgChain mem oneDatagram (chainOf (D :: Ds)) = some ([D.bytes mem], chainOf Ts) := by
    rw [ngxUdpUnixSendmsgChain, if_neg (by decide)]
    change sendmsgLoop mem ngxSendLimit (0 + 1) 0 (chainOf (D :: Ds)) = _
    rw [loop_succ, h]
    split
    · rfl
    · rw [loop_zero]
      rfl
  rw [sendmsgCalls, hcall, Option.bind_eq_bind, Option.bind_some, hres]
  rfl

/-- A datagram that is not clean is followed by as many empty ones as the socket takes. -/
theorem stuck {D : Datagram} (h : ¬ D.Clean) (Ds : List Datagram) (k : ℕ) :
    ∃ calls res, sendmsgCalls mem calls (chainOf (D :: Ds)) = some res ∧ res.1.length = k := by
  induction k generalizing D with
  | zero => exact ⟨[], _, rfl, rfl⟩
  | succ k ih =>
    obtain ⟨E, hE, hstuck⟩ := afterSend_stuck h Ds
    obtain ⟨calls, res, hres, hlength⟩ := ih hstuck
    exact ⟨_, _, calls_cons hE calls hres, by rw [List.length_cons, hlength]⟩

theorem Sendable.of_drop {D E : Datagram} {Ds : List Datagram} (hD : D.Clean) (hE : E.Present)
    (h : Sendable (dropSpecials (E :: Ds))) : Sendable (D :: E :: Ds) := by
  rw [dropSpecials, if_pos hE] at h
  refine ⟨fun F hF => ?_, fun F hF => ?_⟩
  · obtain rfl | hF := List.mem_cons.mp hF
    · exact hD
    obtain rfl | hF := List.mem_cons.mp hF
    · exact Datagram.clean_trim.mp (h.1 _ List.mem_cons_self)
    · exact h.1 F (List.mem_cons_of_mem _ hF)
  · obtain rfl | hF := List.mem_cons.mp hF
    · exact hE
    · exact h.2 F hF

/-- Datagram by datagram, a chain is either sent, with at most one payload for each datagram and with exactly one only
if it is sendable, or it makes as many payloads as one likes. -/
theorem ends_or_stuck (Ds : List Datagram) (k : ℕ) :
    ∃ calls res, sendmsgCalls mem calls (chainOf Ds) = some res ∧
      (k ≤ res.1.length ∨ res.2 = [] ∧ res.1.length ≤ Ds.length ∧ (res.1.length = Ds.length → Sendable Ds)) := by
  induction hn : Ds.length using Nat.strong_induction_on generalizing Ds with
  | _ n ih =>
    subst hn
    cases Ds with
    | nil =>
      refine ⟨[], ([], []), rfl, Or.inr ⟨rfl, le_rfl, fun _ => ⟨?_, ?_⟩⟩⟩
      · exact fun D hD => by cases hD
      · exact fun D hD => by cases hD
    | cons D Ds =>
      by_cases hD : D.Clean
      · have hlength := length_dropSpecials Ds
        obtain ⟨calls, res, hres, hdone⟩ :=
          ih (dropSpecials Ds).length (Nat.lt_succ_of_le hlength) (dropSpecials Ds) rfl
        refine ⟨_, _, calls_cons (afterSend_clean hD Ds) calls hres, hdone.imp (fun hk => ?_) ?_⟩
        · exact hk.trans (Nat.le_succ _)
        · rintro ⟨hnil, hle, hsendable⟩
          refine ⟨hnil, Nat.succ_le_succ (hle.trans hlength), fun heq => ?_⟩
          have heq : res.1.length = Ds.length := Nat.succ_injective heq
          cases Ds with
          | nil => exact ⟨fun F hF => by rwa [List.mem_singleton.mp hF], fun F hF => by cases hF⟩
          | cons E Ds =>
            have hE : E.Present := dropSpecials_length_eq (le_antisymm hlength (heq ▸ hle))
            exact Sendable.of_drop hD hE (hsendable (le_antisymm hle (heq ▸ hlength)))
      · obtain ⟨calls, res, hres, hlength⟩ := @stuck mem D hD Ds k
        exact ⟨calls, res, hres, Or.inl hlength.ge⟩

/-- The payloads are the datagrams of the chain, each once and in order, exactly when every datagram but the first has a
buffer in memory and no datagram ends with an empty one. -/
theorem datagrams_sent (mem : ℕ → UInt8) (Ds : List Datagram) : (∀ calls, Delivers mem Ds calls) ↔ Sendable Ds := by
  refine ⟨fun h => ?_, fun h calls => h.delivers calls⟩
  obtain ⟨calls, res, hres, hk | ⟨hnil, -, hsendable⟩⟩ := @ends_or_stuck mem Ds (Ds.length + 1)
  · have hle := ((h calls).first res hres).length_le
    rw [List.length_map] at hle
    omega
  · refine hsendable ?_
    rw [(h calls).all res hres hnil, List.length_map]

/-- A datagram of one buffer. -/
def single (b : Buf) (hends : b.ends = true) (hknown : b.Known) : Datagram where
  run := []
  last := b
  run_open := fun e he => by cases he
  last_ends := hends
  known := fun e he => by rwa [List.mem_singleton.mp he]
  parts := by
    rw [List.nil_append, List.countP_singleton]
    split <;> decide

/-- A datagram of one byte and an empty one behind it: the empty one is not sent. -/
theorem empty_datagram_lost :
    ¬ Delivers (fun _ => 65)
        [single ⟨0, 1, true, true, false, false⟩ (by decide) (Or.inl ⟨rfl, by decide⟩),
          single ⟨0, 0, false, true, false, false⟩ (by decide) (Or.inr (by decide))]
        [⟨true, 0, 2⟩] := by
  intro h
  have hlost := h.all ([[65]], []) (by decide) rfl
  revert hlost
  decide

end NginxDtls.Sendmsg
