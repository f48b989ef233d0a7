import NginxDtls.PallocSmall
import NginxDtls.Run

/-! Pools over whole runs: what their callers hold, and what the system allocator has given and taken back. -/

namespace NginxDtls.Palloc

open Regions

/-! ### Runs -/

/-- A small allocation that a caller holds; `aligned` is one of `ngx_palloc`. -/
structure Small where
  region : Region
  aligned : Bool

structure World where
  pool : Pool
  heap : Heap
  small : List Small

def Call.apply (h : Heap) : Call → Heap
  | .alloc addr size => h.alloc ⟨addr, size⟩
  | .free addr => h.free addr

def World.calls (w : World) (cs : List Call) : Heap := cs.foldl Call.apply w.heap

/-- What an allocation makes of the pool and of the heap. -/
def World.after (w : World) (r : Allocated) : World := { w with pool := r.pool, heap := w.calls r.calls }

/-- A caller gets what an allocation of a size returns. -/
def World.get (w : World) (size : ℕ) (aligned : Bool) (r : Allocated) : World :=
  if size ≤ w.pool.max then
    { w.after r with small := (r.ptr.map fun m => (⟨⟨m, size⟩, aligned⟩ : Small)).toList ++ w.small }
  else w.after r

/-- A call of the pool's user, with what the system allocator will answer to `ngx_alloc` and to `ngx_memalign`. -/
inductive Event where
  | palloc (size : ℕ) (big block : Option ℕ)
  | pnalloc (size : ℕ) (big block : Option ℕ)
  | pfree (p : Option ℕ)
  | reset

def World.step (w : World) : Event → World
  | .palloc size big block => w.get size true (ngxPalloc w.pool size big block)
  | .pnalloc size big block => w.get size false (ngxPnalloc w.pool size big block)
  | .pfree p => { w with pool := (ngxPfree w.pool p).1, heap := w.calls (ngxPfree w.pool p).2 }
  | .reset => { pool := (ngxResetPool w.pool).1, heap := w.calls (ngxResetPool w.pool).2, small := [] }

/-- What the system allocator gives is aligned to 16 bytes and apart from all that it has given and not got back. -/
def Fresh (h : Heap) (r : Region) : Prop := r.addr % 16 = 0 ∧ ∀ e ∈ h.live, r.Apart e.2

def Answers (w : World) (size : ℕ) (big block : Option ℕ) : Prop :=
  (∀ b ∈ big, w.pool.max < size → Fresh w.heap ⟨b, size⟩) ∧
    ∀ a ∈ block, Fresh w.heap ⟨a, w.pool.psize⟩ ∧
      ∀ b ∈ big, w.pool.max < size → (⟨a, w.pool.psize⟩ : Region).Apart ⟨b, size⟩

def World.ok (w : World) : Event → Prop
  | .palloc size big block => Answers w size big block
  | .pnalloc size big block => Answers w size big block
  | .pfree _ => True
  | .reset => True

instance (r s : Region) : Decidable (r.Apart s) := inferInstanceAs (Decidable (_ ∨ _))

instance (h : Heap) (r : Region) : Decidable (Fresh h r) := inferInstanceAs (Decidable (_ ∧ ∀ e ∈ h.live, r.Apart e.2))

instance (w : World) (size : ℕ) (big block : Option ℕ) : Decidable (Answers w size big block) :=
  inferInstanceAs (Decidable ((∀ b ∈ big, w.pool.max < size → Fresh w.heap ⟨b, size⟩) ∧ ∀ a ∈ block, _ ∧ ∀ b ∈ big, _))

instance (w : World) : ∀ e, Decidable (w.ok e)
  | .palloc size big block => inferInstanceAs (Decidable (Answers w size big block))
  | .pnalloc size big block => inferInstanceAs (Decidable (Answers w size big block))
  | .pfree _ => inferInstanceAs (Decidable True)
  | .reset => inferInstanceAs (Decidable True)

/-- A pool that was just created. -/
def World.start (pagesize psize p : ℕ) : World where
  pool := ngxCreatePool pagesize psize p
  heap := Heap.alloc {} ⟨p, psize⟩
  small := []

/-- What is left of the heap when the pool is destroyed. -/
def World.destroyed (w : World) : Heap := w.calls (ngxDestroyPool w.pool)

/-! ### The invariant -/

variable {psize size p : ℕ} {w : World} {pool : Pool} {ls : List Region}

def recordRegions (pool : Pool) : List Region := pool.large.map fun l => ⟨l.addr, sizeofPoolLarge⟩

/-- All that was given out of the blocks. -/
def World.pieces (w : World) : List Region := w.small.map Small.region ++ recordRegions w.pool

def allocs (pool : Pool) : List ℕ := pool.large.filterMap PoolLarge.alloc

/-- The pool holds its blocks and, in its records, the large regions `ls`. -/
structure Sound (psize : ℕ) (w : World) (ls : List Region) : Prop where
  shaped : Shaped psize w.pool
  arena : (arena psize w.pool w.pieces).Sound
  aligned : ∀ s ∈ w.small, s.aligned = true → s.region.addr % 8 = 0
  large : ls.map Region.addr = allocs w.pool
  owns : w.heap.Owns (blockRegions psize w.pool ++ ls)

theorem Sound.start (pagesize : ℕ) (hmod : psize % 16 = 0) (hgt : sizeofPool < psize) (hp : p % 16 = 0) :
    Sound psize (World.start pagesize psize p) [] where
  shaped := by
    refine ⟨hmod, hgt, ?_, Nat.one_pos, ?_, fun _ _ => hp, fun _ _ => rfl⟩
    · change (if psize - sizeofPool < pagesize - 1 then psize - sizeofPool else pagesize - 1) + sizeofPool ≤ psize
      split <;> omega
    · intro i hi
      rw [if_neg (by change ¬i + 1 < 1; omega)]
      rfl
  arena := by
    refine ⟨?_, ?_, fun _ hq => absurd hq List.not_mem_nil, .nil⟩
    · intro i j hi hj hij
      change i < 1 at hi
      change j < 1 at hj
      omega
    · intro i hi
      obtain rfl : i = 0 := Nat.lt_one_iff.mp hi
      exact ⟨Nat.le_add_right _ _, Nat.le_refl _, Nat.add_le_add_left hgt.le p⟩
  aligned := fun _ hs => absurd hs List.not_mem_nil
  large := rfl
  owns := Heap.owns_nil.alloc (r := ⟨p, psize⟩) (Nat.zero_lt_of_lt hgt) fun _ hs => absurd hs List.not_mem_nil

/-! ### The records -/

theorem allocs_cons (l : PoolLarge) (large : List PoolLarge) : (l :: large).filterMap PoolLarge.alloc =
    l.alloc.toList ++ large.filterMap PoolLarge.alloc := by
  cases hl : l.alloc with
  | none => exact List.filterMap_cons_none hl
  | some a => exact List.filterMap_cons_some hl

/-- A record that is used again holds one block more. -/
theorem reuseLoop_some {large large' : List PoolLarge} {n : ℕ} (h : reuseLoop p large n = some large') :
    large'.map PoolLarge.addr = large.map PoolLarge.addr ∧ ∃ as bs, large.filterMap PoolLarge.alloc = as ++ bs ∧
      large'.filterMap PoolLarge.alloc = as ++ p :: bs := by
  induction large generalizing n large' with
  | nil => exact absurd h (by simp [reuseLoop])
  | cons l large ih =>
      rw [reuseLoop] at h
      split at h
      · rename_i hnone
        obtain rfl := Option.some.inj h
        refine ⟨rfl, [], large.filterMap PoolLarge.alloc, ?_, ?_⟩
        · rw [List.filterMap_cons_none hnone, List.nil_append]
        · exact List.filterMap_cons_some rfl
      · split at h
        · exact absurd h (by simp)
        · obtain ⟨large', hlarge', rfl⟩ := Option.map_eq_some_iff.mp h
          obtain ⟨haddr, as, bs, hsplit, hsplit'⟩ := ih hlarge'
          refine ⟨congrArg (l.addr :: ·) haddr, l.alloc.toList ++ as, bs, ?_, ?_⟩
          · rw [List.append_assoc, ← hsplit, allocs_cons]
          · rw [List.append_assoc, ← hsplit', allocs_cons]

/-- A record whose block is released holds none. -/
theorem pfreeLoop_some {p : Option ℕ} {large large' : List PoolLarge} (h : pfreeLoop p large = some large') :
    large'.map PoolLarge.addr = large.map PoolLarge.addr ∧ ∃ as bs,
      large.filterMap PoolLarge.alloc = as ++ (p.toList ++ bs) ∧ large'.filterMap PoolLarge.alloc = as ++ bs := by
  induction large generalizing large' with
  | nil => exact absurd h (by simp [pfreeLoop])
  | cons l large ih =>
      rw [pfreeLoop] at h
      split at h
      · rename_i hp
        obtain rfl := Option.some.inj h
        refine ⟨rfl, [], large.filterMap PoolLarge.alloc, ?_, List.filterMap_cons_none rfl⟩
        rw [hp, List.nil_append, allocs_cons]
      · obtain ⟨large', hlarge', rfl⟩ := Option.map_eq_some_iff.mp h
        obtain ⟨haddr, as, bs, hsplit, hsplit'⟩ := ih hlarge'
        refine ⟨congrArg (l.addr :: ·) haddr, l.alloc.toList ++ as, bs, ?_, ?_⟩
        · rw [List.append_assoc, ← hsplit, allocs_cons]
        · rw [List.append_assoc, ← hsplit', allocs_cons]

theorem recordRegions_congr {pool pool' : Pool} (h : pool'.large.map PoolLarge.addr = pool.large.map PoolLarge.addr) :
    recordRegions pool' = recordRegions pool := by
  have hmap : ∀ large : List PoolLarge, large.map (fun l => (⟨l.addr, sizeofPoolLarge⟩ : Region)) =
      (large.map PoolLarge.addr).map fun a => ⟨a, sizeofPoolLarge⟩ := fun large => by rw [List.map_map]; rfl
  rw [recordRegions, recordRegions, hmap, hmap, h]

theorem Carved.addLarge {pool pool' : Pool} {pieces more : List Region} {piece : Region}
    (h : Carved psize pool pool' pieces piece more) (m p : ℕ) :
    Shaped psize { pool' with large := ⟨m, some p⟩ :: pool'.large } :=
  ⟨h.shaped.size_mod, h.shaped.size_gt, h.shaped.max_le, h.shaped.current_lt, h.shaped.next, h.shaped.addr_mod,
    h.shaped.endp⟩

theorem Carved.records {pool pool' : Pool} {pieces more : List Region} {piece : Region}
    (h : Carved psize pool pool' pieces piece more) : recordRegions pool' = recordRegions pool :=
  congrArg (List.map fun l => (⟨PoolLarge.addr l, sizeofPoolLarge⟩ : Region)) h.large

theorem Carved.allocs {pool pool' : Pool} {pieces more : List Region} {piece : Region}
    (h : Carved psize pool pool' pieces piece more) : allocs pool' = allocs pool :=
  congrArg (List.filterMap PoolLarge.alloc) h.large

/-! ### Steps -/

theorem Sound.apart_of_fresh (h : Sound psize w ls) {r : Region} (hr : Fresh w.heap r) {s : Region}
    (hs : s ∈ blockRegions psize w.pool ++ ls) : r.Apart s := by
  obtain ⟨n, hn⟩ := h.owns.mem_live.mp hs
  exact hr.2 (n, s) hn

theorem Sound.freshBlock (h : Sound psize w ls) {b : ℕ} (hb : Fresh w.heap ⟨b, psize⟩) : FreshBlock psize w.pool b :=
  ⟨hb.1, fun _ hr => h.apart_of_fresh hb (List.mem_append_left ls hr)⟩

theorem perm_block {b : Region} {blocks : List Region} : (b :: (blocks ++ ls)).Perm (blocks ++ [b] ++ ls) := by
  rw [List.append_assoc]
  exact List.perm_middle.symm

theorem Sound.palloc_small (h : Sound psize w ls) (hle : size ≤ w.pool.max) (align : Bool) {block : Option ℕ}
    (hblock : ∀ b ∈ block, Fresh w.heap ⟨b, psize⟩) :
    Sound psize (w.get size align (ngxPallocSmall w.pool size align block)) ls := by
  have hmax := h.shaped.max_le
  have hsize : size + sizeofPool ≤ psize := by omega
  obtain hnone | ⟨m, pool', hsome, halign, hcarved⟩ | ⟨b, m, pool', hb, hsome, halign, hcarved⟩ :=
    ngxPallocSmall_cases align h.shaped h.arena hsize fun b hb => h.freshBlock (hblock b hb)
  · rw [hnone, World.get, if_pos hle]
    exact h
  · rw [hsome, World.get, if_pos hle]
    refine ⟨hcarved.shaped, hcarved.sound _ ?_, List.forall_mem_cons.mpr ⟨halign, h.aligned⟩, ?_, ?_⟩
    · change (⟨m, size⟩ :: w.small.map Small.region ++ recordRegions pool').Perm _
      rw [hcarved.records]
      exact .refl _
    · exact h.large.trans hcarved.allocs.symm
    · change w.heap.Owns (blockRegions psize pool' ++ ls)
      rw [hcarved.blocks, List.append_nil]
      exact h.owns
  · rw [hsome, World.get, if_pos hle]
    refine ⟨hcarved.shaped, hcarved.sound _ ?_, List.forall_mem_cons.mpr ⟨fun _ => halign, h.aligned⟩, ?_, ?_⟩
    · change (⟨m, size⟩ :: w.small.map Small.region ++ recordRegions pool').Perm _
      rw [hcarved.records]
      exact .refl _
    · exact h.large.trans hcarved.allocs.symm
    · have hpos : 0 < psize := Nat.zero_lt_of_lt h.shaped.size_gt
      change (w.heap.alloc ⟨b, psize⟩).Owns (blockRegions psize pool' ++ ls)
      rw [hcarved.blocks]
      exact (h.owns.alloc hpos fun s hs => h.apart_of_fresh (hblock b hb) hs).of_perm perm_block

/-- A block is handed out, in a record that is used again. -/
theorem Sound.reuse (h : Sound psize w ls) {large : List PoolLarge} (hp : Fresh w.heap ⟨p, size⟩) (hpos : 0 < size)
    (hreuse : reuseLoop p w.pool.large 0 = some large) :
    ∃ ls', Sound psize (w.after ⟨some p, { w.pool with large := large }, [.alloc p size]⟩) ls' := by
  obtain ⟨haddr, as, bs, hsplit, hsplit'⟩ := reuseLoop_some hreuse
  obtain ⟨ls₁, ls₂, rfl, hls₁, hls₂⟩ := List.map_eq_append_iff.mp (h.large.trans hsplit)
  refine ⟨ls₁ ++ ⟨p, size⟩ :: ls₂, ⟨h.shaped.size_mod, h.shaped.size_gt, h.shaped.max_le, h.shaped.current_lt, h.shaped.next,
    h.shaped.addr_mod, h.shaped.endp⟩, ?_, h.aligned, ?_, ?_⟩
  · have hpieces := h.arena
    rw [World.pieces, ← @recordRegions_congr w.pool { w.pool with large := large } haddr] at hpieces
    exact hpieces
  · rw [List.map_append, List.map_cons, hls₁, hls₂]
    exact hsplit'.symm
  · refine (h.owns.alloc (r := ⟨p, size⟩) hpos fun s hs => h.apart_of_fresh hp hs).of_perm ?_
    rw [← List.append_assoc, ← List.append_assoc]
    exact List.perm_middle.symm

/-- A block is handed out, in a record of its own, or given back at once. -/
theorem Sound.addRecord (h : Sound psize w ls) (hp : Fresh w.heap ⟨p, size⟩) (hpos : 0 < size) {block : Option ℕ}
    (hblock : ∀ b ∈ block, Fresh w.heap ⟨b, psize⟩ ∧ (⟨b, psize⟩ : Region).Apart ⟨p, size⟩) :
    ∃ ls', Sound psize (w.after (addRecord w.pool size p block)) ls' := by
  have hsize : sizeofPoolLarge + sizeofPool ≤ psize := by
    have hmod := h.shaped.size_mod
    have hgt := h.shaped.size_gt
    rw [sizeofPool] at hgt ⊢
    rw [sizeofPoolLarge]
    omega
  have howns := h.owns.alloc (r := ⟨p, size⟩) hpos fun s hs => h.apart_of_fresh hp hs
  have hmiddle : (⟨p, size⟩ :: (blockRegions psize w.pool ++ ls)).Perm (blockRegions psize w.pool ++ ⟨p, size⟩ :: ls) :=
    List.perm_middle.symm
  obtain hnone | ⟨m, pool', hsome, -, hcarved⟩ | ⟨b, m, pool', hb, hsome, -, hcarved⟩ :=
    ngxPallocSmall_cases true h.shaped h.arena hsize fun b hb => h.freshBlock (hblock b hb).1
  · rw [Palloc.addRecord, hnone]
    exact ⟨ls, h.shaped, h.arena, h.aligned, h.large, howns.free⟩
  · rw [Palloc.addRecord, hsome]
    refine ⟨⟨p, size⟩ :: ls, hcarved.addLarge m p, hcarved.sound _ ?_, h.aligned, ?_, ?_⟩
    · change (w.small.map Small.region ++ ⟨m, sizeofPoolLarge⟩ :: recordRegions pool').Perm _
      rw [hcarved.records]
      exact List.perm_middle
    · exact congrArg (p :: ·) (h.large.trans hcarved.allocs.symm)
    · change (w.heap.alloc ⟨p, size⟩).Owns (blockRegions psize pool' ++ ⟨p, size⟩ :: ls)
      rw [hcarved.blocks, List.append_nil]
      exact howns.of_perm hmiddle
  · obtain ⟨hfresh, hapart⟩ := hblock b hb
    have hpos' : 0 < psize := Nat.zero_lt_of_lt h.shaped.size_gt
    rw [Palloc.addRecord, hsome]
    refine ⟨⟨p, size⟩ :: ls, hcarved.addLarge m p, hcarved.sound _ ?_, h.aligned, ?_, ?_⟩
    · change (w.small.map Small.region ++ ⟨m, sizeofPoolLarge⟩ :: recordRegions pool').Perm _
      rw [hcarved.records]
      exact List.perm_middle
    · exact congrArg (p :: ·) (h.large.trans hcarved.allocs.symm)
    · change ((w.heap.alloc ⟨p, size⟩).alloc ⟨b, psize⟩).Owns (blockRegions psize pool' ++ ⟨p, size⟩ :: ls)
      rw [hcarved.blocks]
      refine ((howns.of_perm hmiddle).alloc (r := ⟨b, psize⟩) hpos' fun s hs => ?_).of_perm perm_block
      obtain rfl | hs := List.mem_cons.mp (hmiddle.mem_iff.mpr hs)
      · exact hapart
      · exact h.apart_of_fresh hfresh hs

theorem Sound.palloc_large (h : Sound psize w ls) (hlarge : w.pool.max < size) {big block : Option ℕ}
    (hanswers : Answers w size big block) :
    ∃ ls', Sound psize (w.after (ngxPallocLarge w.pool size big block)) ls' := by
  have hpsize := psize_eq h.shaped
  have hpos : 0 < size := Nat.zero_lt_of_lt hlarge
  cases big with
  | none => exact ⟨ls, h⟩
  | some p =>
      have hp := hanswers.1 p rfl hlarge
      rw [ngxPallocLarge]
      cases hreuse : reuseLoop p w.pool.large 0 with
      | some large => exact h.reuse hp hpos hreuse
      | none =>
          refine h.addRecord hp hpos fun b hb => ?_
          rw [← hpsize]
          exact ⟨(hanswers.2 b hb).1, (hanswers.2 b hb).2 p rfl hlarge⟩

theorem Sound.get (h : Sound psize w ls) (align : Bool) {big block : Option ℕ} (hanswers : Answers w size big block) :
    ∃ ls', Sound psize (w.get size align (if size ≤ w.pool.max then ngxPallocSmall w.pool size align block
      else ngxPallocLarge w.pool size big block)) ls' := by
  split
  · rename_i hle
    exact ⟨ls, h.palloc_small hle align fun b hb => psize_eq h.shaped ▸ (hanswers.2 b hb).1⟩
  · rename_i hlarge
    rw [World.get, if_neg hlarge]
    exact h.palloc_large (Nat.lt_of_not_le hlarge) hanswers

theorem Sound.pfree (h : Sound psize w ls) (p : Option ℕ) : ∃ ls', Sound psize (w.step (.pfree p)) ls' := by
  cases hpfree : pfreeLoop p w.pool.large with
  | none =>
      rw [World.step, ngxPfree, hpfree]
      exact ⟨ls, h⟩
  | some large =>
      rw [World.step, ngxPfree, hpfree]
      obtain ⟨haddr, as, bs, hsplit, hsplit'⟩ := pfreeLoop_some hpfree
      obtain ⟨ls₁, ls₂, rfl, hls₁, hls₂⟩ := List.map_eq_append_iff.mp (h.large.trans hsplit)
      obtain ⟨ls₃, ls₄, rfl, hls₃, hls₄⟩ := List.map_eq_append_iff.mp hls₂
      refine ⟨ls₁ ++ ls₄, ⟨h.shaped.size_mod, h.shaped.size_gt, h.shaped.max_le, h.shaped.current_lt, h.shaped.next,
        h.shaped.addr_mod, h.shaped.endp⟩, ?_, h.aligned, ?_, ?_⟩
      · have hpieces := h.arena
        rw [World.pieces, ← @recordRegions_congr w.pool { w.pool with large := large } haddr] at hpieces
        exact hpieces
      · rw [List.map_append, hls₁, hls₄]
        exact hsplit'.symm
      · have hcalls : w.calls (freeCalls p) = (ls₃.map Region.addr).foldl Heap.free w.heap := by
          rw [hls₃]
          cases p <;> rfl
        change (w.calls (freeCalls p)).Owns (blockRegions psize w.pool ++ (ls₁ ++ ls₄))
        rw [hcalls]
        refine Heap.Owns.frees (h.owns.of_perm ?_)
        have hperm : (blockRegions psize w.pool ++ ls₁ ++ ls₃ ++ ls₄).Perm (ls₃ ++ (blockRegions psize w.pool ++ ls₁) ++ ls₄) :=
          List.perm_append_comm.append_right ls₄
        simpa only [List.append_assoc] using hperm

/-! ### Resetting and destroying -/

/-- What `ngx_reset_pool` makes of a block. -/
def resetData (d : PoolData) : PoolData := { d with last := d.addr + sizeofPool, failed := 0 }

theorem resetLoop_none (fuel : ℕ) (pool : Pool) : resetLoop fuel pool none = pool := by
  cases fuel <;> rfl

/-- The loop resets every block from the one where it starts. -/
theorem resetLoop_eq {fuel : ℕ} (hnext : ∀ i < pool.count, (pool.d i).next = if i + 1 < pool.count then some (i + 1) else none)
    (hp : p < pool.count) (hfuel : pool.count ≤ p + fuel) : resetLoop fuel pool (some p) =
      { pool with d := fun i => if p ≤ i ∧ i < pool.count then resetData (pool.d i) else pool.d i } := by
  induction fuel generalizing pool p with
  | zero => omega
  | succ fuel ih =>
      have hround : ∀ i, Function.update pool.d p (resetData (pool.d p)) i = if i = p then resetData (pool.d i) else pool.d i := by
        intro i
        by_cases hi : i = p
        · rw [if_pos hi, hi, Function.update_self]
        · rw [if_neg hi, Function.update_of_ne hi]
      have hstep : resetLoop (fuel + 1) pool (some p) =
          resetLoop fuel { pool with d := Function.update pool.d p (resetData (pool.d p)) } (pool.d p).next := rfl
      rw [hstep, hnext p hp]
      by_cases hmore : p + 1 < pool.count
      · have hnext' : ∀ i < pool.count, (Function.update pool.d p (resetData (pool.d p)) i).next =
            if i + 1 < pool.count then some (i + 1) else none := by
          intro i hi
          rw [hround, apply_ite PoolData.next]
          exact (ite_self _).trans (hnext i hi)
        rw [if_pos hmore]
        refine (@ih (p + 1) { pool with d := Function.update pool.d p (resetData (pool.d p)) } hnext' hmore
          (by change pool.count ≤ _; omega)).trans ?_
        congr 1
        funext i
        change (if p + 1 ≤ i ∧ i < pool.count then resetData (Function.update pool.d p (resetData (pool.d p)) i)
          else Function.update pool.d p (resetData (pool.d p)) i) = _
        rw [hround]
        by_cases hi : i = p
        · rw [if_neg (by omega), if_pos hi, if_pos (by omega)]
        · rw [if_neg hi]
          exact if_congr (by omega) rfl rfl
      · rw [if_neg hmore, resetLoop_none]
        congr 1
        funext i
        rw [hround]
        exact if_congr (by omega) rfl rfl

theorem largeCalls_apply (pool : Pool) (h : Heap) :
    (largeCalls pool).foldl Call.apply h = (allocs pool).foldl Heap.free h := by
  rw [largeCalls, allocs]
  induction pool.large generalizing h with
  | nil => rfl
  | cons l large ih =>
      rw [List.flatMap_cons, List.foldl_append, ih, allocs_cons, List.foldl_append]
      cases l.alloc <;> rfl

theorem Sound.free_large (h : Sound psize w ls) : (w.calls (largeCalls w.pool)).Owns (blockRegions psize w.pool) := by
  rw [World.calls, largeCalls_apply, ← h.large]
  exact Heap.Owns.frees (h.owns.of_perm List.perm_append_comm)

/-- The blocks are those of another pool, with nothing given out and nothing large. -/
structure Cleared (pool pool' : Pool) : Prop where
  count : pool'.count = pool.count
  max : pool'.max = pool.max
  current : pool'.current = 0
  large : pool'.large = []
  addr : ∀ i, (pool'.d i).addr = (pool.d i).addr
  endp : ∀ i, (pool'.d i).endp = (pool.d i).endp
  next : ∀ i, (pool'.d i).next = (pool.d i).next
  last : ∀ i < pool.count, (pool'.d i).last = (pool.d i).addr + sizeofPool

theorem cleared_ngxResetPool (hs : Shaped psize pool) : Cleared pool (ngxResetPool pool).1 := by
  have hcount : 0 < pool.count := Nat.zero_lt_of_lt hs.current_lt
  have hfield : ∀ {α : Type} (f : PoolData → α), (∀ d, f (resetData d) = f d) →
      ∀ i, f (if 0 ≤ i ∧ i < pool.count then resetData (pool.d i) else pool.d i) = f (pool.d i) := by
    intro α f hf i
    split
    · exact hf _
    · rfl
  rw [ngxResetPool, resetLoop_eq hs.next hcount (Nat.le_add_left _ _)]
  refine ⟨rfl, rfl, rfl, rfl, hfield PoolData.addr fun _ => rfl, hfield PoolData.endp fun _ => rfl,
    hfield PoolData.next fun _ => rfl, ?_⟩
  intro i hi
  change (if 0 ≤ i ∧ i < pool.count then resetData (pool.d i) else pool.d i).last = _
  rw [if_pos ⟨Nat.zero_le i, hi⟩]
  rfl

theorem Sound.reset (h : Sound psize w ls) : Sound psize (w.step .reset) [] := by
  have hs := h.shaped
  have hclear := cleared_ngxResetPool hs
  have hblock : ∀ i, blockRegion psize (ngxResetPool w.pool).1 i = blockRegion psize w.pool i :=
    fun i => by rw [blockRegion, hclear.addr, blockRegion]
  have hregions : blockRegions psize (ngxResetPool w.pool).1 = blockRegions psize w.pool := by
    rw [blockRegions, hclear.count, funext hblock, blockRegions]
  refine ⟨⟨hs.size_mod, hs.size_gt, hclear.max ▸ hs.max_le, ?_, ?_, ?_, ?_⟩, ?_, fun _ hs => absurd hs List.not_mem_nil, ?_, ?_⟩
  · change (ngxResetPool w.pool).1.current < (ngxResetPool w.pool).1.count
    rw [hclear.current, hclear.count]
    exact Nat.zero_lt_of_lt hs.current_lt
  · intro i hi
    change ((ngxResetPool w.pool).1.d i).next = if i + 1 < (ngxResetPool w.pool).1.count then _ else _
    rw [hclear.next, hclear.count]
    exact hs.next i (hclear.count ▸ hi)
  · intro i hi
    change ((ngxResetPool w.pool).1.d i).addr % 16 = 0
    rw [hclear.addr]
    exact hs.addr_mod i (hclear.count ▸ hi)
  · intro i hi
    change ((ngxResetPool w.pool).1.d i).endp = ((ngxResetPool w.pool).1.d i).addr + psize
    rw [hclear.endp, hclear.addr]
    exact hs.endp i (hclear.count ▸ hi)
  · refine h.arena.clear (funext fun i => congrArg (i < ·) hclear.count) (funext hblock) ?_ ?_
    · intro i hi
      have hheader : header i ≤ sizeofPool := by
        rw [header]
        split <;> decide
      have hgt := hs.size_gt
      change (w.pool.d i).addr ≤ ((ngxResetPool w.pool).1.d i).addr + header i ∧
        ((ngxResetPool w.pool).1.d i).addr + header i ≤ ((ngxResetPool w.pool).1.d i).last ∧
        ((ngxResetPool w.pool).1.d i).last ≤ (w.pool.d i).addr + psize
      rw [hclear.addr, hclear.last i hi]
      omega
    · change recordRegions (ngxResetPool w.pool).1 = []
      rw [recordRegions, hclear.large]
      rfl
  · change [] = allocs (ngxResetPool w.pool).1
    rw [allocs, hclear.large]
    rfl
  · change (w.calls (largeCalls w.pool)).Owns (blockRegions psize (ngxResetPool w.pool).1 ++ [])
    rw [List.append_nil, hregions]
    exact h.free_large

theorem destroyLoop_eq (hs : Shaped psize pool) {fuel : ℕ} (hp : p < pool.count) (hfuel : pool.count ≤ p + fuel) :
    destroyLoop pool fuel p = (List.range' p (pool.count - p)).map fun i => .free (pool.d i).addr := by
  induction fuel generalizing p with
  | zero => omega
  | succ fuel ih =>
      rw [destroyLoop, hs.next p hp, show pool.count - p = pool.count - (p + 1) + 1 by omega, List.range'_succ,
        List.map_cons]
      by_cases hmore : p + 1 < pool.count
      · rw [if_pos hmore, Option.elim_some, ih hmore (by omega)]
      · rw [if_neg hmore, show pool.count - (p + 1) = 0 by omega]
        rfl

/-- A pool that is destroyed gives back what it holds. -/
theorem Sound.destroyed_eq (h : Sound psize w ls) :
    w.destroyed = ((ls ++ blockRegions psize w.pool).map Region.addr).foldl Heap.free w.heap := by
  have hcount : 0 < w.pool.count := Nat.zero_lt_of_lt h.shaped.current_lt
  have hblocks : ∀ g : Heap, (destroyLoop w.pool w.pool.count 0).foldl Call.apply g =
      ((blockRegions psize w.pool).map Region.addr).foldl Heap.free g := by
    intro g
    rw [destroyLoop_eq h.shaped hcount (Nat.le_add_left _ _), blockRegions, List.map_map, List.foldl_map, List.foldl_map,
      List.range_eq_range']
    rfl
  rw [World.destroyed, ngxDestroyPool, World.calls, List.foldl_append, hblocks, largeCalls_apply, ← h.large, List.map_append,
    List.foldl_append]

theorem Sound.destroyed (h : Sound psize w ls) : w.destroyed.Owns [] := by
  rw [h.destroyed_eq]
  refine Heap.Owns.frees ?_
  rw [List.append_nil]
  exact h.owns.of_perm List.perm_append_comm

/-! ### What a large allocation asks for -/

theorem ngxPallocSmall_calls (pool : Pool) (size : ℕ) (align : Bool) (block : Option ℕ) :
    ((ngxPallocSmall pool size align block).ptr = none ∧ (ngxPallocSmall pool size align block).calls = []) ∨
    ∃ m, (ngxPallocSmall pool size align block).ptr = some m ∧
      ∀ c ∈ (ngxPallocSmall pool size align block).calls, ∃ b, c = .alloc b pool.psize := by
  rw [ngxPallocSmall]
  cases smallLoop pool size align pool.count pool.current with
  | some q => exact .inr ⟨_, rfl, fun c hc => absurd hc List.not_mem_nil⟩
  | none =>
      cases block with
      | none => exact .inl ⟨rfl, rfl⟩
      | some b => exact .inr ⟨_, rfl, fun c hc => ⟨b, List.mem_singleton.mp hc⟩⟩

/-- A large allocation gets nothing, gives back what it got, or hands it out and gives nothing back. -/
theorem ngxPallocLarge_calls (pool : Pool) (size : ℕ) (big block : Option ℕ) :
    ((ngxPallocLarge pool size big block).ptr = none ∧ ((ngxPallocLarge pool size big block).calls = [] ∨
      ∃ m, (ngxPallocLarge pool size big block).calls = [.alloc m size, .free m])) ∨
    ∃ m cs, big = some m ∧ (ngxPallocLarge pool size big block).ptr = some m ∧
      (ngxPallocLarge pool size big block).calls = .alloc m size :: cs ∧ ∀ c ∈ cs, ∃ b, c = .alloc b pool.psize := by
  cases big with
  | none => exact .inl ⟨rfl, .inl rfl⟩
  | some p =>
      rw [ngxPallocLarge]
      cases reuseLoop p pool.large 0 with
      | some large => exact .inr ⟨p, [], rfl, rfl, rfl, fun c hc => absurd hc List.not_mem_nil⟩
      | none =>
          change ((addRecord pool size p block).ptr = none ∧ ((addRecord pool size p block).calls = [] ∨
              ∃ m, (addRecord pool size p block).calls = [.alloc m size, .free m])) ∨
            ∃ m cs, some p = some m ∧ (addRecord pool size p block).ptr = some m ∧
              (addRecord pool size p block).calls = .alloc m size :: cs ∧ ∀ c ∈ cs, ∃ b, c = .alloc b pool.psize
          rw [addRecord]
          obtain ⟨hptr, hcalls⟩ | ⟨m, hptr, hcalls⟩ := ngxPallocSmall_calls pool sizeofPoolLarge true block
          · rw [hptr, hcalls]
            exact .inl ⟨rfl, .inr ⟨p, rfl⟩⟩
          · rw [hptr]
            exact .inr ⟨p, _, rfl, rfl, rfl, hcalls⟩

theorem foldl_allocs {cs : List Call} {n : ℕ} (hcs : ∀ c ∈ cs, ∃ b, c = .alloc b n) (h : Heap) :
    (cs.foldl Call.apply h).released = h.released ∧ ∀ e ∈ h.live, e ∈ (cs.foldl Call.apply h).live := by
  induction cs generalizing h with
  | nil => exact ⟨rfl, fun _ he => he⟩
  | cons c cs ih =>
      obtain ⟨b, rfl⟩ := hcs c List.mem_cons_self
      obtain ⟨hreleased, hlive⟩ := ih (fun c hc => hcs c (List.mem_cons_of_mem _ hc)) (h.alloc ⟨b, n⟩)
      exact ⟨hreleased, fun e he => hlive e (List.mem_cons_of_mem _ he)⟩

/-- What was just given out is what is released. -/
theorem live_alloc_free (h : Heap) (r : Region) : ((h.alloc r).free r.addr).live = h.live := by
  have hfind : (h.alloc r).live.find? (fun e => e.2.addr = r.addr) = some (h.serial, r) :=
    List.find?_cons_of_pos (decide_eq_true rfl)
  rw [Heap.free, hfind]
  change ((h.serial, r) :: h.live).eraseP (fun e => decide (e.2.addr = r.addr)) = h.live
  exact List.eraseP_cons_of_pos (decide_eq_true rfl)

/-! ### The guarantees of a pool -/

/-- The link between two blocks. -/
def Next (pool : Pool) (i j : ℕ) : Prop := (pool.d i).next = some j

/-- What callers may rely on. -/
structure Guarantees (w : World) : Prop where
  disjoint : (w.small.map Small.region).Pairwise Region.Apart
  inside : ∀ s ∈ w.small, ∃ i < w.pool.count, (w.pool.d i).addr + header i ≤ s.region.addr ∧
    s.region.stop ≤ (w.pool.d i).endp
  records : ∀ s ∈ w.small, ∀ r ∈ recordRegions w.pool, s.region.Apart r
  aligned : ∀ s ∈ w.small, s.aligned = true → s.region.addr % ngxAlignment = 0
  palloc : ∀ size big block, Answers w size big block → ∀ m ∈ (ngxPalloc w.pool size big block).ptr, m % ngxAlignment = 0
  current : Relation.ReflTransGen (Next w.pool) 0 w.pool.current ∧
    Relation.ReflTransGen (Next w.pool) w.pool.current (w.pool.count - 1) ∧ (w.pool.d (w.pool.count - 1)).next = none
  /-- A large block that is handed out is held, and nothing is released; otherwise the blocks held stay the same. -/
  large : ∀ size big block,
    (∀ m ∈ (ngxPallocLarge w.pool size big block).ptr,
      (w.after (ngxPallocLarge w.pool size big block)).heap.released = w.heap.released ∧
        (w.heap.serial, ⟨m, size⟩) ∈ (w.after (ngxPallocLarge w.pool size big block)).heap.live) ∧
      ((ngxPallocLarge w.pool size big block).ptr = none →
        (w.after (ngxPallocLarge w.pool size big block)).heap.live = w.heap.live)
  /-- Every block is held, or was released once. -/
  once : ∀ n < w.heap.serial, (w.heap.live.map Prod.fst).count n + w.heap.released.count n = 1
  sound : w.heap.fault = false
  /-- When the pool is destroyed, every block was released once. -/
  destroyed : w.destroyed.live = [] ∧ w.destroyed.fault = false ∧
    w.destroyed.serial = w.heap.serial ∧ ∀ n < w.heap.serial, w.destroyed.released.count n = 1

theorem count_of_owns {h : Heap} {held : List Region} (ho : h.Owns held) {n : ℕ} (hn : n < h.serial) :
    (h.live.map Prod.fst).count n + h.released.count n = 1 := by
  rw [← List.count_append, ho.once.count_eq]
  exact List.count_eq_one_of_mem List.nodup_range (List.mem_range.mpr hn)

theorem foldl_frees_serial (as : List ℕ) (h : Heap) : (as.foldl Heap.free h).serial = h.serial := by
  induction as generalizing h with
  | nil => rfl
  | cons a as ih =>
      rw [List.foldl_cons, ih, Heap.free]
      split <;> rfl

theorem reaches (hs : Shaped psize pool) {i j : ℕ} (hij : i ≤ j) (hj : j < pool.count) :
    Relation.ReflTransGen (Next pool) i j := by
  induction j, hij using Nat.le_induction with
  | base => exact .refl
  | succ j hij ih =>
      refine (ih (by omega)).tail ?_
      rw [Next, hs.next j (by omega), if_pos hj]

theorem large_calls (w : World) (size : ℕ) (big block : Option ℕ) :
    (∀ m ∈ (ngxPallocLarge w.pool size big block).ptr,
      (w.after (ngxPallocLarge w.pool size big block)).heap.released = w.heap.released ∧
        (w.heap.serial, ⟨m, size⟩) ∈ (w.after (ngxPallocLarge w.pool size big block)).heap.live) ∧
      ((ngxPallocLarge w.pool size big block).ptr = none →
        (w.after (ngxPallocLarge w.pool size big block)).heap.live = w.heap.live) := by
  rw [World.after, World.calls]
  obtain ⟨hptr, hcalls⟩ | ⟨m, cs, -, hptr, hcalls, hcs⟩ := ngxPallocLarge_calls w.pool size big block
  · refine ⟨fun m hm => absurd (hptr.symm.trans hm) (by simp), fun _ => ?_⟩
    obtain hcalls | ⟨m, hcalls⟩ := hcalls
    · rw [hcalls]
      rfl
    · rw [hcalls]
      exact live_alloc_free w.heap ⟨m, size⟩
  · refine ⟨fun m' hm' => ?_, fun hnone => absurd (hptr.symm.trans hnone) (by simp)⟩
    obtain rfl : m = m' := Option.some.inj (hptr.symm.trans hm')
    obtain ⟨hreleased, hlive⟩ := foldl_allocs hcs (w.heap.alloc ⟨m, size⟩)
    rw [hcalls, List.foldl_cons]
    exact ⟨hreleased, hlive _ List.mem_cons_self⟩

theorem Sound.palloc_aligned (h : Sound psize w ls) {big block : Option ℕ} (hanswers : Answers w size big block) {m : ℕ}
    (hm : m ∈ (ngxPalloc w.pool size big block).ptr) : m % ngxAlignment = 0 := by
  rw [ngxPalloc] at hm
  split at hm
  · rename_i hle
    have hsmall := (h.palloc_small hle true fun b hb => psize_eq h.shaped ▸ (hanswers.2 b hb).1).aligned ⟨⟨m, size⟩, true⟩
    refine hsmall ?_ rfl
    rw [World.get, if_pos hle, hm]
    exact List.mem_cons_self
  · rename_i hlarge
    obtain ⟨hptr, -⟩ | ⟨m', cs, hbig, hptr, -, -⟩ := ngxPallocLarge_calls w.pool size big block
    · exact absurd (hptr.symm.trans hm) (by simp)
    · obtain rfl : m' = m := Option.some.inj (hptr.symm.trans hm)
      have hfresh := (hanswers.1 m' hbig (Nat.lt_of_not_le hlarge)).1
      rw [ngxAlignment]
      change m' % 16 = 0 at hfresh
      omega

theorem Sound.guarantees (h : Sound psize w ls) : Guarantees w := by
  obtain ⟨hsmall, -, hrecords⟩ := List.pairwise_append.mp h.arena.pieces
  have hcurrent := h.shaped.current_lt
  refine ⟨hsmall, ?_, ?_, h.aligned, fun size big block hanswers m hm => h.palloc_aligned hanswers hm, ⟨?_, ?_, ?_⟩,
    large_calls w, fun n hn => count_of_owns h.owns hn, h.owns.sound, ?_⟩
  · intro s hs
    obtain ⟨i, hi, hlow, hstop⟩ := h.arena.inside s.region (List.mem_append_left _ (List.mem_map_of_mem hs))
    refine ⟨i, hi, hlow, hstop.trans ?_⟩
    rw [h.shaped.endp i hi]
    exact (h.arena.low_le i hi).2.2
  · exact fun s hs r hr => hrecords s.region (List.mem_map_of_mem hs) r hr
  · exact reaches h.shaped (Nat.zero_le _) hcurrent
  · exact reaches h.shaped (by omega) (by omega)
  · rw [h.shaped.next _ (by omega), if_neg (by omega)]
  · have howns := h.destroyed
    have hserial : w.destroyed.serial = w.heap.serial := by rw [h.destroyed_eq, foldl_frees_serial]
    have hlive : w.destroyed.live = [] := List.map_eq_nil_iff.mp howns.perm.eq_nil
    refine ⟨hlive, howns.sound, hserial, fun n hn => ?_⟩
    have hcount := count_of_owns howns (hserial ▸ hn)
    rwa [hlive, List.map_nil, List.count_nil, Nat.zero_add] at hcount

theorem Sound.step (h : Sound psize w ls) {e : Event} (hok : w.ok e) : ∃ ls', Sound psize (w.step e) ls' := by
  cases e with
  | palloc size big block => exact h.get true hok
  | pnalloc size big block => exact h.get false hok
  | pfree p => exact h.pfree p
  | reset => exact ⟨[], h.reset⟩

/-- Over every run of calls, a pool keeps what its callers may rely on. -/
theorem pool_sound (pagesize : ℕ) {psize p : ℕ} (hmod : psize % 16 = 0) (hgt : sizeofPool < psize) (hp : p % 16 = 0)
    {es : List Event} (hok : Run.Along World.step World.ok (World.start pagesize psize p) es) :
    Guarantees (Run.run World.step (World.start pagesize psize p) es) := by
  have hrun := Run.run_invariant (I := fun w => ∃ ls, Sound psize w ls) (fun w e ⟨ls, h⟩ hok => h.step hok)
    ⟨[], Sound.start pagesize hmod hgt hp⟩ hok
  obtain ⟨ls, h⟩ := hrun
  exact h.guarantees

/-- A record in a block of its own, a release, and what is given out after a reset. -/
theorem pool_sound_reset : Guarantees (Run.run World.step (World.start 4096 96 16)
    [.palloc 13 none none, .pnalloc 3 none none, .palloc 100 (some 1024) (some 128), .pfree (some 1024),
      .pnalloc 5 none none, .reset, .palloc 16 none none]) :=
  pool_sound 4096 (by decide) (by decide) (by decide) (by decide)

end NginxDtls.Palloc
