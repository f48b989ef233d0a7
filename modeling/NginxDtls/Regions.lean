import Mathlib.Tactic

/-! Regions of memory: the books of an allocator that hands them out and takes them back, and arenas, which hand out pieces
of the blocks that they hold, one behind the other. -/

namespace NginxDtls.Regions

@[ext]
structure Region where
  addr : ℕ
  size : ℕ

namespace Region

def stop (r : Region) : ℕ := r.addr + r.size

/-- No byte belongs to both. -/
def Apart (r s : Region) : Prop := r.stop ≤ s.addr ∨ s.stop ≤ r.addr

def Within (r s : Region) : Prop := s.addr ≤ r.addr ∧ r.stop ≤ s.stop

variable {r s r' s' : Region}

theorem Apart.symm (h : r.Apart s) : s.Apart r := Or.symm h

theorem Apart.mono (h : r.Apart s) (hr : r'.Within r) (hs : s'.Within s) : r'.Apart s' :=
  h.imp (fun h => hr.2.trans (h.trans hs.1)) fun h => hs.2.trans (h.trans hr.1)

/-- Regions that are not empty begin at different addresses. -/
theorem Apart.addr_ne (h : r.Apart s) (hr : 0 < r.size) (hs : 0 < s.size) : r.addr ≠ s.addr := by
  intro heq
  unfold Apart stop at h
  omega

end Region

theorem pairwise_apart_perm {l l' : List Region} (h : l.Perm l') : l.Pairwise Region.Apart ↔ l'.Pairwise Region.Apart :=
  h.pairwise_iff fun {_ _} h => Region.Apart.symm h

/-! ### The books of an allocator -/

/-- Every block that was handed out has a number of its own. A release of what is not held is a fault. -/
structure Heap where
  live : List (ℕ × Region) := []
  released : List ℕ := []
  serial : ℕ := 0
  fault : Bool := false

namespace Heap

def alloc (h : Heap) (r : Region) : Heap := { h with live := (h.serial, r) :: h.live, serial := h.serial + 1 }

/-- The block that begins at an address is released. -/
def free (h : Heap) (addr : ℕ) : Heap :=
  match h.live.find? (fun e => e.2.addr = addr) with
  | none => { h with fault := true }
  | some e => { h with live := h.live.eraseP (fun e => e.2.addr = addr), released := h.released ++ [e.1] }

/-- The blocks that are held are these, apart from each other, and every other block was released once. -/
structure Owns (h : Heap) (held : List Region) : Prop where
  perm : (h.live.map Prod.snd).Perm held
  apart : held.Pairwise Region.Apart
  pos : ∀ r ∈ held, 0 < r.size
  once : (h.live.map Prod.fst ++ h.released).Perm (List.range h.serial)
  sound : h.fault = false

variable {h : Heap} {held held' : List Region} {r : Region}

theorem owns_nil : Owns {} [] where
  perm := .refl _
  apart := .nil
  pos := fun _ hr => absurd hr List.not_mem_nil
  once := .refl _
  sound := rfl

theorem Owns.of_perm (ho : h.Owns held) (hp : held.Perm held') : h.Owns held' where
  perm := ho.perm.trans hp
  apart := (pairwise_apart_perm hp).mp ho.apart
  pos := fun r hr => ho.pos r (hp.mem_iff.mpr hr)
  once := ho.once
  sound := ho.sound

theorem Owns.mem_live (ho : h.Owns held) : r ∈ held ↔ ∃ n, (n, r) ∈ h.live := by
  rw [← ho.perm.mem_iff, List.mem_map]
  constructor
  · rintro ⟨⟨n, r'⟩, hmem, rfl⟩
    exact ⟨n, hmem⟩
  · rintro ⟨n, hmem⟩
    exact ⟨(n, r), hmem, rfl⟩

theorem Owns.alloc (ho : h.Owns held) (hpos : 0 < r.size) (hapart : ∀ s ∈ held, r.Apart s) :
    (h.alloc r).Owns (r :: held) where
  perm := ho.perm.cons r
  apart := List.pairwise_cons.mpr ⟨hapart, ho.apart⟩
  pos := List.forall_mem_cons.mpr ⟨hpos, ho.pos⟩
  once := by
    change (h.serial :: (h.live.map Prod.fst ++ h.released)).Perm (List.range (h.serial + 1))
    rw [List.range_succ]
    exact (ho.once.cons h.serial).trans (List.perm_append_singleton _ _).symm
  sound := ho.sound

theorem perm_of_find {α : Type} {p : α → Bool} {l : List α} {e : α} (h : l.find? p = some e) :
    l.Perm (e :: l.eraseP p) := by
  induction l with
  | nil => exact absurd h (by simp)
  | cons a l ih =>
      by_cases ha : p a
      · rw [List.find?_cons_of_pos ha] at h
        obtain rfl := Option.some.inj h
        rw [List.eraseP_cons_of_pos ha]
      · rw [List.find?_cons_of_neg ha] at h
        rw [List.eraseP_cons_of_neg ha]
        exact ((ih h).cons a).trans (List.Perm.swap e a _)

/-- A block that is held is released, and no other. -/
theorem Owns.free (ho : h.Owns (r :: held)) : (h.free r.addr).Owns held := by
  obtain ⟨n, hlive⟩ := ho.mem_live.mp List.mem_cons_self
  cases hfind : h.live.find? (fun e => e.2.addr = r.addr) with
  | none => exact absurd (List.find?_eq_none.mp hfind _ hlive) (by simp)
  | some e =>
      have hfree : h.free r.addr = { h with
          live := h.live.eraseP (fun e => e.2.addr = r.addr), released := h.released ++ [e.1] } := by
        rw [Heap.free, hfind]
      have hperm := perm_of_find hfind
      have haddr : e.2.addr = r.addr := by simpa using List.find?_some hfind
      -- another block begins somewhere else
      have her : e.2 = r := by
        have hmem : e.2 ∈ r :: held := ho.mem_live.mpr ⟨e.1, List.mem_of_find?_eq_some hfind⟩
        obtain heq | hmem := List.mem_cons.mp hmem
        · exact heq
        · have hapart := (List.pairwise_cons.mp ho.apart).1 e.2 hmem
          exact absurd haddr.symm (hapart.addr_ne (ho.pos r List.mem_cons_self) (ho.pos e.2 (List.mem_cons_of_mem r hmem)))
      have hsnd : ((h.live.eraseP fun e => e.2.addr = r.addr).map Prod.snd).Perm held := by
        have hcons := (hperm.map Prod.snd).symm
        rw [List.map_cons, her] at hcons
        exact (hcons.trans ho.perm).cons_inv
      have honce : ((h.live.eraseP fun e => e.2.addr = r.addr).map Prod.fst ++ (h.released ++ [e.1])).Perm
          (List.range h.serial) := by
        rw [← List.append_assoc]
        refine (List.perm_append_singleton e.1 _).trans ?_
        rw [← List.cons_append]
        exact ((hperm.map Prod.fst).symm.append_right h.released).trans ho.once
      rw [hfree]
      exact ⟨hsnd, (List.pairwise_cons.mp ho.apart).2, fun s hs => ho.pos s (List.mem_cons_of_mem r hs), honce, ho.sound⟩

theorem Owns.frees {rs : List Region} (ho : h.Owns (rs ++ held)) :
    ((rs.map Region.addr).foldl Heap.free h).Owns held := by
  induction rs generalizing h with
  | nil => exact ho
  | cons r rs ih => exact ih ho.free

end Heap

/-! ### Arenas -/

/-- Blocks with what is kept for other ends in front of `low`, given out up to `mark`, and the pieces that were given
out. -/
structure Arena (ι : Type) where
  used : ι → Prop
  block : ι → Region
  low : ι → ℕ
  mark : ι → ℕ
  pieces : List Region

namespace Arena

variable {ι : Type}

/-- The blocks and the pieces are apart from each other, and every piece is in a block, behind `low`. -/
structure Sound (A : Arena ι) : Prop where
  apart : ∀ i j, A.used i → A.used j → i ≠ j → (A.block i).Apart (A.block j)
  low_le : ∀ i, A.used i → (A.block i).addr ≤ A.low i ∧ A.low i ≤ A.mark i ∧ A.mark i ≤ (A.block i).stop
  inside : ∀ p ∈ A.pieces, ∃ i, A.used i ∧ A.low i ≤ p.addr ∧ p.stop ≤ A.mark i
  pieces : A.pieces.Pairwise Region.Apart

variable {A B : Arena ι}

/-- What is given out behind the marks is apart from all that was given out before. -/
theorem Sound.apart_of_mark (hs : A.Sound) {i : ι} (hi : A.used i) {p : Region} (hmark : A.mark i ≤ p.addr)
    (hstop : p.stop ≤ (A.block i).stop) {q : Region} (hq : q ∈ A.pieces) : p.Apart q := by
  obtain ⟨j, hj, hlow, hqstop⟩ := hs.inside q hq
  have hjlow := hs.low_le j hj
  have hilow := hs.low_le i hi
  by_cases hij : j = i
  · subst hij
    exact .inr (hqstop.trans hmark)
  · refine ((hs.apart j i hj hi hij).mono ⟨hjlow.1.trans hlow, hqstop.trans hjlow.2.2⟩ ?_).symm
    exact ⟨hilow.1.trans (hilow.2.1.trans hmark), hstop⟩

/-- A piece is given out behind the mark of a block. -/
theorem Sound.carve (hs : A.Sound) {i : ι} {p : Region} (hi : A.used i) (hmark : A.mark i ≤ p.addr)
    (hstop : p.stop ≤ (A.block i).stop) (hused : B.used = A.used) (hblock : B.block = A.block) (hlow : B.low = A.low)
    (hp : B.mark i = p.stop) (hother : ∀ j, j ≠ i → B.mark j = A.mark j) (hpieces : B.pieces.Perm (p :: A.pieces)) :
    B.Sound := by
  have hle : A.mark i ≤ B.mark i := by
    rw [hp]
    exact hmark.trans (Nat.le_add_right _ _)
  have hgrown : ∀ j, A.mark j ≤ B.mark j := by
    intro j
    by_cases hj : j = i
    · exact hj ▸ hle
    · exact (hother j hj).ge
  refine ⟨?_, ?_, ?_, ?_⟩
  · rw [hused, hblock]
    exact hs.apart
  · rw [hused, hblock, hlow]
    intro j hj
    refine ⟨(hs.low_le j hj).1, (hs.low_le j hj).2.1.trans (hgrown j), ?_⟩
    by_cases hji : j = i
    · rw [hji, hp]
      exact hstop
    · rw [hother j hji]
      exact (hs.low_le j hj).2.2
  · intro q hq
    rw [hused, hlow]
    obtain rfl | hq := List.mem_cons.mp (hpieces.mem_iff.mp hq)
    · exact ⟨i, hi, (hs.low_le i hi).2.1.trans hmark, hp.ge⟩
    · obtain ⟨j, hj, hqlow, hqstop⟩ := hs.inside q hq
      exact ⟨j, hj, hqlow, hqstop.trans (hgrown j)⟩
  · rw [pairwise_apart_perm hpieces, List.pairwise_cons]
    exact ⟨fun q hq => hs.apart_of_mark hi hmark hstop hq, hs.pieces⟩

/-- A block joins that is apart from the others, with nothing given out of it. -/
theorem Sound.join (hs : A.Sound) {i : ι} (hi : ¬A.used i) (hused : ∀ j, B.used j ↔ A.used j ∨ j = i)
    (hblock : ∀ j, A.used j → B.block j = A.block j) (hlow : ∀ j, A.used j → B.low j = A.low j)
    (hmark : ∀ j, A.used j → B.mark j = A.mark j) (hpieces : B.pieces = A.pieces)
    (hnew : (B.block i).addr ≤ B.low i ∧ B.low i ≤ B.mark i ∧ B.mark i ≤ (B.block i).stop)
    (hapart : ∀ j, A.used j → (B.block i).Apart (A.block j)) : B.Sound := by
  refine ⟨?_, ?_, ?_, hpieces ▸ hs.pieces⟩
  · intro j k hj hk hjk
    obtain hj | rfl := (hused j).mp hj
    · rw [hblock j hj]
      obtain hk | rfl := (hused k).mp hk
      · rw [hblock k hk]
        exact hs.apart j k hj hk hjk
      · exact (hapart j hj).symm
    · obtain hk | rfl := (hused k).mp hk
      · rw [hblock k hk]
        exact hapart k hk
      · exact absurd rfl hjk
  · intro j hj
    obtain hj | rfl := (hused j).mp hj
    · rw [hblock j hj, hlow j hj, hmark j hj]
      exact hs.low_le j hj
    · exact hnew
  · intro p hp
    rw [hpieces] at hp
    obtain ⟨j, hj, hplow, hpstop⟩ := hs.inside p hp
    exact ⟨j, (hused j).mpr (.inl hj), by rwa [hlow j hj], by rwa [hmark j hj]⟩

/-- All pieces are given up, and the marks are set anew. -/
theorem Sound.clear (hs : A.Sound) (hused : B.used = A.used) (hblock : B.block = A.block)
    (hlow : ∀ i, A.used i → (A.block i).addr ≤ B.low i ∧ B.low i ≤ B.mark i ∧ B.mark i ≤ (A.block i).stop)
    (hpieces : B.pieces = []) : B.Sound where
  apart := by rw [hused, hblock]; exact hs.apart
  low_le := by rw [hused, hblock]; exact hlow
  inside := by rw [hpieces]; exact fun _ hp => absurd hp List.not_mem_nil
  pieces := by rw [hpieces]; exact .nil

end Arena

end NginxDtls.Regions
