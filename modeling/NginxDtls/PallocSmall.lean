import NginxDtls.Palloc
import NginxDtls.Regions

/-! What an allocation from the blocks of a pool can do: it carves a piece behind what was given out before, of a block that
has room or of a new one at the end of the list. -/

namespace NginxDtls.Palloc

open Regions

/-! ### The shape of a pool -/

/-- What stands in front of the pieces of a block. -/
def header (i : ℕ) : ℕ := if i = 0 then sizeofPool else sizeofPoolData

/-- Blocks of one size, linked in the order of their numbers. -/
structure Shaped (psize : ℕ) (pool : Pool) : Prop where
  size_mod : psize % 16 = 0
  size_gt : sizeofPool < psize
  max_le : pool.max + sizeofPool ≤ psize
  current_lt : pool.current < pool.count
  next : ∀ i < pool.count, (pool.d i).next = if i + 1 < pool.count then some (i + 1) else none
  addr_mod : ∀ i < pool.count, (pool.d i).addr % 16 = 0
  endp : ∀ i < pool.count, (pool.d i).endp = (pool.d i).addr + psize

def blockRegion (psize : ℕ) (pool : Pool) (i : ℕ) : Region := ⟨(pool.d i).addr, psize⟩

/-- The blocks of a pool with the pieces that were given out. -/
def arena (psize : ℕ) (pool : Pool) (pieces : List Region) : Arena ℕ where
  used := fun i => i < pool.count
  block := blockRegion psize pool
  low := fun i => (pool.d i).addr + header i
  mark := fun i => (pool.d i).last
  pieces := pieces

/-- The blocks are those of another pool, but for what the loops count. -/
structure SameBlocks (pool pool' : Pool) : Prop where
  count : pool'.count = pool.count
  max : pool'.max = pool.max
  large : pool'.large = pool.large
  addr : ∀ i, (pool'.d i).addr = (pool.d i).addr
  last : ∀ i, (pool'.d i).last = (pool.d i).last
  endp : ∀ i, (pool'.d i).endp = (pool.d i).endp
  next : ∀ i, (pool'.d i).next = (pool.d i).next

variable {psize size m p : ℕ} {pool pool' : Pool} {pieces : List Region} {align : Bool}

theorem SameBlocks.refl (pool : Pool) : SameBlocks pool pool :=
  ⟨rfl, rfl, rfl, fun _ => rfl, fun _ => rfl, fun _ => rfl, fun _ => rfl⟩

theorem SameBlocks.trans {pool'' : Pool} (h : SameBlocks pool pool') (h' : SameBlocks pool' pool'') :
    SameBlocks pool pool'' where
  count := h'.count.trans h.count
  max := h'.max.trans h.max
  large := h'.large.trans h.large
  addr := fun i => (h'.addr i).trans (h.addr i)
  last := fun i => (h'.last i).trans (h.last i)
  endp := fun i => (h'.endp i).trans (h.endp i)
  next := fun i => (h'.next i).trans (h.next i)

theorem Shaped.same (hs : Shaped psize pool) (h : SameBlocks pool pool') (hcurrent : pool'.current < pool.count) :
    Shaped psize pool' where
  size_mod := hs.size_mod
  size_gt := hs.size_gt
  max_le := h.max ▸ hs.max_le
  current_lt := h.count ▸ hcurrent
  next := fun i hi => by
    rw [h.count] at hi ⊢
    rw [h.next, hs.next i hi]
  addr_mod := fun i hi => by
    rw [h.addr]
    exact hs.addr_mod i (h.count ▸ hi)
  endp := fun i hi => by
    rw [h.endp, h.addr]
    exact hs.endp i (h.count ▸ hi)

theorem arena_same (h : SameBlocks pool pool') (psize : ℕ) (pieces : List Region) :
    arena psize pool' pieces = arena psize pool pieces := by
  have hblock : blockRegion psize pool' = blockRegion psize pool := funext fun i => by rw [blockRegion, h.addr, blockRegion]
  rw [arena, arena, h.count, hblock]
  congr 1
  · exact funext fun i => by rw [h.addr]
  · exact funext fun i => h.last i

/-! ### Room in a block -/

/-- An aligned cursor does not pass the end of a block, since this is aligned too. -/
theorem start_bounds {d : PoolData} (hle : d.last ≤ d.endp) (hend : d.endp % 8 = 0) (align : Bool) :
    d.last ≤ start d align ∧ start d align ≤ d.endp ∧ (align = true → start d align % 8 = 0) := by
  cases align with
  | false => exact ⟨Nat.le_refl _, hle, fun h => absurd h (by decide)⟩
  | true =>
      change d.last ≤ (d.last + 7) / 8 * 8 ∧ (d.last + 7) / 8 * 8 ≤ d.endp ∧ (true = true → (d.last + 7) / 8 * 8 % 8 = 0)
      omega

theorem spaceLeft_of_le {endp : ℕ} (h : m ≤ endp) : spaceLeft endp m = endp - m := if_pos h

/-- The block that is found has room, and those in front of it have not. -/
theorem smallLoop_some (hs : Shaped psize pool) {fuel q : ℕ} (hp : p < pool.count)
    (h : smallLoop pool size align fuel p = some q) :
    q < pool.count ∧ size ≤ spaceLeft (pool.d q).endp (start (pool.d q) align) := by
  induction fuel generalizing p with
  | zero => exact absurd h (by simp [smallLoop])
  | succ fuel ih =>
      rw [smallLoop] at h
      split at h
      · rename_i hroom
        obtain rfl := Option.some.inj h
        exact ⟨hp, hroom⟩
      · rw [hs.next p hp] at h
        split at h
        · rename_i hmore
          exact ih hmore h
        · exact absurd h (by simp)

/-! ### The loop over failures -/

theorem countFailure_field {α : Type} (f : PoolData → α) (hf : ∀ d n, f { d with failed := n } = f d) (pool : Pool)
    (p next i : ℕ) : f ((countFailure pool p next).d i) = f (pool.d i) := by
  change f (Function.update pool.d p { pool.d p with failed := (pool.d p).failed + 1 } i) = _
  by_cases hi : i = p
  · rw [hi, Function.update_self, hf]
  · rw [Function.update_of_ne hi]

theorem sameBlocks_countFailure (pool : Pool) (p next : ℕ) : SameBlocks pool (countFailure pool p next) where
  count := rfl
  max := rfl
  large := rfl
  addr := countFailure_field PoolData.addr (fun _ _ => rfl) pool p next
  last := countFailure_field PoolData.last (fun _ _ => rfl) pool p next
  endp := countFailure_field PoolData.endp (fun _ _ => rfl) pool p next
  next := countFailure_field PoolData.next (fun _ _ => rfl) pool p next

/-- The loop ends at the last block, and leaves a current block. -/
theorem failLoop_spec (hs : Shaped psize pool) {fuel : ℕ} (hp : p < pool.count) (hfuel : pool.count ≤ p + fuel) :
    SameBlocks pool (failLoop fuel pool p).1 ∧ (failLoop fuel pool p).1.current < pool.count ∧
      (failLoop fuel pool p).2 + 1 = pool.count := by
  induction fuel generalizing pool p with
  | zero => omega
  | succ fuel ih =>
      rw [failLoop, hs.next p hp]
      by_cases hmore : p + 1 < pool.count
      · rw [if_pos hmore]
        have hsame := sameBlocks_countFailure pool p (p + 1)
        have hcurrent : (countFailure pool p (p + 1)).current < pool.count := by
          rw [countFailure]
          split
          · exact hmore
          · exact hs.current_lt
        obtain ⟨hsame', hcurrent', hlast⟩ := ih (hs.same hsame hcurrent) (p := p + 1) (by rwa [hsame.count])
          (by rw [hsame.count]; omega)
        rw [hsame.count] at hcurrent' hlast
        exact ⟨hsame.trans hsame', hcurrent', hlast⟩
      · rw [if_neg hmore]
        exact ⟨.refl pool, hs.current_lt, by change p + 1 = _; omega⟩

/-! ### A new block -/

variable {new : PoolData}

theorem link_new (pool : Pool) (p : ℕ) (new : PoolData) : (pool.link p new).d pool.count = new := Function.update_self ..

theorem link_field {α : Type} (f : PoolData → α) (hf : ∀ d n, f { d with next := n } = f d) (pool : Pool) (p : ℕ)
    (new : PoolData) {i : ℕ} (hi : i < pool.count) : f ((pool.link p new).d i) = f (pool.d i) := by
  change f (Function.update (Function.update pool.d p { pool.d p with next := some pool.count }) pool.count new i) = _
  rw [Function.update_of_ne hi.ne]
  by_cases hp : i = p
  · rw [hp, Function.update_self, hf]
  · rw [Function.update_of_ne hp]

theorem link_next (hs : Shaped psize pool) (hp : p + 1 = pool.count) (hnew : new.next = none) {i : ℕ}
    (hi : i < pool.count + 1) : ((pool.link p new).d i).next = if i + 1 < pool.count + 1 then some (i + 1) else none := by
  change (Function.update (Function.update pool.d p { pool.d p with next := some pool.count }) pool.count new i).next = _
  by_cases hcount : i = pool.count
  · rw [hcount, Function.update_self, hnew, if_neg (Nat.lt_irrefl _)]
  · rw [Function.update_of_ne hcount, if_pos (by omega)]
    by_cases hip : i = p
    · rw [hip, Function.update_self, hp]
    · rw [Function.update_of_ne hip, hs.next i (by omega), if_pos (by omega)]

theorem Shaped.link (hs : Shaped psize pool) (hp : p + 1 = pool.count) (hnew : new.next = none)
    (haddr : new.addr % 16 = 0) (hend : new.endp = new.addr + psize) : Shaped psize (pool.link p new) where
  size_mod := hs.size_mod
  size_gt := hs.size_gt
  max_le := hs.max_le
  current_lt := hs.current_lt.trans (Nat.lt_succ_self _)
  next := fun i hi => link_next hs hp hnew hi
  addr_mod := fun i hi => by
    obtain hlt | rfl := Nat.lt_succ_iff_lt_or_eq.mp hi
    · rw [link_field PoolData.addr (fun _ _ => rfl) pool p new hlt]
      exact hs.addr_mod i hlt
    · rwa [link_new]
  endp := fun i hi => by
    obtain hlt | rfl := Nat.lt_succ_iff_lt_or_eq.mp hi
    · rw [link_field PoolData.endp (fun _ _ => rfl) pool p new hlt, link_field PoolData.addr (fun _ _ => rfl) pool p new hlt]
      exact hs.endp i hlt
    · rwa [link_new]

theorem blockRegion_link (psize : ℕ) (pool : Pool) (p : ℕ) (new : PoolData) {i : ℕ} (hi : i < pool.count) :
    blockRegion psize (pool.link p new) i = blockRegion psize pool i := by
  rw [blockRegion, link_field PoolData.addr (fun _ _ => rfl) pool p new hi, blockRegion]

/-- A new block with nothing given out. -/
theorem arena_link (hA : (arena psize pool pieces).Sound) (hs : Shaped psize pool) (hlast : new.last = new.addr + sizeofPoolData)
    (hapart : ∀ i < pool.count, (⟨new.addr, psize⟩ : Region).Apart (blockRegion psize pool i)) (p : ℕ) :
    (arena psize (pool.link p new) pieces).Sound := by
  have hcurrent := hs.current_lt
  have hheader : header pool.count = sizeofPoolData := if_neg (by omega)
  refine hA.join (i := pool.count) (Nat.lt_irrefl _) (fun j => Nat.lt_succ_iff_lt_or_eq) ?_ ?_ ?_ rfl ?_ ?_
  · exact fun j hj => blockRegion_link psize pool p new hj
  · exact fun j hj => congrArg (· + header j) (link_field PoolData.addr (fun _ _ => rfl) pool p new hj)
  · exact fun j hj => link_field PoolData.last (fun _ _ => rfl) pool p new hj
  · have hgt := hs.size_gt
    change ((pool.link p new).d pool.count).addr ≤ ((pool.link p new).d pool.count).addr + header pool.count ∧
      ((pool.link p new).d pool.count).addr + header pool.count ≤ ((pool.link p new).d pool.count).last ∧
      ((pool.link p new).d pool.count).last ≤ ((pool.link p new).d pool.count).addr + psize
    rw [link_new, hheader, hlast]
    rw [sizeofPool] at hgt
    rw [sizeofPoolData]
    omega
  · intro j hj
    change (blockRegion psize (pool.link p new) pool.count).Apart (blockRegion psize pool j)
    rw [blockRegion, link_new]
    exact hapart j hj

/-! ### The allocation -/

/-- The blocks that a pool holds, as regions. -/
def blockRegions (psize : ℕ) (pool : Pool) : List Region := (List.range pool.count).map (blockRegion psize pool)

/-- A piece was carved, and the pool holds these blocks more. -/
structure Carved (psize : ℕ) (pool pool' : Pool) (pieces : List Region) (piece : Region) (more : List Region) : Prop where
  shaped : Shaped psize pool'
  sound : ∀ pieces', pieces'.Perm (piece :: pieces) → (arena psize pool' pieces').Sound
  large : pool'.large = pool.large
  max : pool'.max = pool.max
  blocks : blockRegions psize pool' = blockRegions psize pool ++ more

theorem setLast_field {α : Type} (f : PoolData → α) (hf : ∀ d n, f { d with last := n } = f d) (pool : Pool)
    (p last i : ℕ) : f ((pool.setLast p last).d i) = f (pool.d i) := by
  change f (Function.update pool.d p { pool.d p with last := last } i) = _
  by_cases hi : i = p
  · rw [hi, Function.update_self, hf]
  · rw [Function.update_of_ne hi]

theorem carved_setLast (hs : Shaped psize pool) (hA : (arena psize pool pieces).Sound) {q : ℕ} (hq : q < pool.count)
    (hlast : (pool.d q).last ≤ m) (hend : m + size ≤ (pool.d q).endp) :
    Carved psize pool (pool.setLast q (m + size)) pieces ⟨m, size⟩ [] := by
  have haddr := setLast_field PoolData.addr (fun _ _ => rfl) pool q (m + size)
  have hendp := setLast_field PoolData.endp (fun _ _ => rfl) pool q (m + size)
  have hnext := setLast_field PoolData.next (fun _ _ => rfl) pool q (m + size)
  have hblock : blockRegion psize (pool.setLast q (m + size)) = blockRegion psize pool :=
    funext fun i => by rw [blockRegion, haddr, blockRegion]
  refine ⟨⟨hs.size_mod, hs.size_gt, hs.max_le, hs.current_lt, ?_, ?_, ?_⟩, ?_, rfl, rfl, ?_⟩
  · exact fun i hi => (hnext i).trans (hs.next i hi)
  · intro i hi
    rw [haddr]
    exact hs.addr_mod i hi
  · intro i hi
    rw [hendp, haddr]
    exact hs.endp i hi
  · intro pieces' hpieces
    refine hA.carve (i := q) (p := ⟨m, size⟩) hq hlast ?_ rfl hblock ?_ ?_ ?_ hpieces
    · change m + size ≤ (pool.d q).addr + psize
      rwa [← hs.endp q hq]
    · exact funext fun i => congrArg (· + header i) (haddr i)
    · change (Function.update pool.d q { pool.d q with last := m + size } q).last = m + size
      rw [Function.update_self]
    · intro j hj
      change (Function.update pool.d q { pool.d q with last := m + size } j).last = (pool.d j).last
      rw [Function.update_of_ne hj]
  · rw [blockRegions, hblock, List.append_nil, blockRegions]
    rfl

theorem link_setLast (pool : Pool) (p last : ℕ) (new : PoolData) :
    (pool.link p new).setLast pool.count last = pool.link p { new with last := last } := by
  rw [Pool.setLast, link_new, Pool.link, Pool.link, Function.update_idem]

theorem blockRegions_link (psize : ℕ) (pool : Pool) (p : ℕ) (new : PoolData) :
    blockRegions psize (pool.link p new) = blockRegions psize pool ++ [⟨new.addr, psize⟩] := by
  change (List.range (pool.count + 1)).map _ = _
  rw [List.range_succ, List.map_append, blockRegions, List.map_singleton, blockRegion, link_new]
  congr 1
  exact List.map_congr_left fun i hi => blockRegion_link psize pool p new (List.mem_range.mp hi)

theorem blockRegions_same (h : SameBlocks pool pool') (psize : ℕ) : blockRegions psize pool' = blockRegions psize pool := by
  rw [blockRegions, h.count, blockRegions]
  exact List.map_congr_left fun i _ => by rw [blockRegion, h.addr, blockRegion]

/-- What the system answers with a block for a pool. -/
def FreshBlock (psize : ℕ) (pool : Pool) (b : ℕ) : Prop :=
  b % 16 = 0 ∧ ∀ r ∈ blockRegions psize pool, (⟨b, psize⟩ : Region).Apart r

theorem psize_eq (hs : Shaped psize pool) : pool.psize = psize := by
  rw [Pool.psize, hs.endp 0 (Nat.zero_lt_of_lt hs.current_lt), Nat.add_sub_cancel_left]

theorem ngxPallocBlock_some (hs : Shaped psize pool) (hA : (arena psize pool pieces).Sound) (hsize : size + sizeofPool ≤ psize)
    {b : ℕ} (hb : FreshBlock psize pool b) : ∃ pool', ngxPallocBlock pool size (some b) =
      ⟨some (b + sizeofPoolData), pool', [.alloc b psize]⟩ ∧
        Carved psize pool pool' pieces ⟨b + sizeofPoolData, size⟩ [⟨b, psize⟩] := by
  obtain ⟨hmod, hapart⟩ := hb
  have halign : ngxAlignPtr (b + sizeofPoolData) ngxAlignment = b + sizeofPoolData := by
    rw [ngxAlignPtr, sizeofPoolData, ngxAlignment]
    omega
  obtain ⟨hsame, hcurrent, hlast⟩ := failLoop_spec hs hs.current_lt (Nat.le_add_left pool.count pool.current)
  rw [ngxPallocBlock, psize_eq hs, halign]
  refine ⟨_, rfl, ?_⟩
  generalize failLoop pool.count pool pool.current = r at hsame hcurrent hlast
  have hs1 := hs.same hsame hcurrent
  have hcount : r.2 + 1 = r.1.count := hlast.trans hsame.count.symm
  have hnew : Shaped psize (r.1.link r.2 ⟨b, b + sizeofPoolData, b + psize, none, 0⟩) := hs1.link hcount rfl hmod rfl
  have hA1 : (arena psize (r.1.link r.2 ⟨b, b + sizeofPoolData, b + psize, none, 0⟩) pieces).Sound := by
    refine arena_link (by rwa [arena_same hsame]) hs1 rfl ?_ r.2
    intro i hi
    rw [blockRegion, hsame.addr]
    exact hapart _ (List.mem_map_of_mem (List.mem_range.mpr (hsame.count ▸ hi)))
  have hend : b + sizeofPoolData + size ≤
      ((r.1.link r.2 ⟨b, b + sizeofPoolData, b + psize, none, 0⟩).d r.1.count).endp := by
    rw [link_new]
    change b + sizeofPoolData + size ≤ b + psize
    rw [sizeofPool] at hsize
    rw [sizeofPoolData]
    omega
  have hcarved := carved_setLast hnew hA1 (Nat.lt_succ_self _) (by rw [link_new]) hend
  rw [link_setLast] at hcarved
  refine ⟨hcarved.shaped, hcarved.sound, hcarved.large.trans hsame.large, hcarved.max.trans hsame.max, ?_⟩
  rw [hcarved.blocks, blockRegions_link, blockRegions_same hsame, List.append_nil]

/-- A small allocation fails and changes nothing, or it carves a piece of a block of the pool, or of a new one. -/
theorem ngxPallocSmall_cases (align : Bool) (hs : Shaped psize pool) (hA : (arena psize pool pieces).Sound)
    (hsize : size + sizeofPool ≤ psize) {block : Option ℕ} (hblock : ∀ b ∈ block, FreshBlock psize pool b) :
    ngxPallocSmall pool size align block = ⟨none, pool, []⟩ ∨
    (∃ m pool', ngxPallocSmall pool size align block = ⟨some m, pool', []⟩ ∧ (align = true → m % 8 = 0) ∧
      Carved psize pool pool' pieces ⟨m, size⟩ []) ∨
    ∃ b m pool', block = some b ∧ ngxPallocSmall pool size align block = ⟨some m, pool', [.alloc b psize]⟩ ∧ m % 8 = 0 ∧
      Carved psize pool pool' pieces ⟨m, size⟩ [⟨b, psize⟩] := by
  rw [ngxPallocSmall]
  cases hloop : smallLoop pool size align pool.count pool.current with
  | some q =>
      obtain ⟨hq, hroom⟩ := smallLoop_some hs hs.current_lt hloop
      have hbounds := hA.low_le q hq
      have hle : (pool.d q).last ≤ (pool.d q).endp := hs.endp q hq ▸ hbounds.2.2
      have hmod : (pool.d q).endp % 8 = 0 := by
        have haddr := hs.addr_mod q hq
        have hpsize := hs.size_mod
        rw [hs.endp q hq]
        omega
      obtain ⟨hstart, hend, halign⟩ := start_bounds hle hmod align
      rw [spaceLeft_of_le hend] at hroom
      exact .inr (.inl ⟨_, _, rfl, halign, carved_setLast hs hA hq hstart (by omega)⟩)
  | none =>
      cases block with
      | none => exact .inl rfl
      | some b =>
          obtain ⟨pool', hpool', hcarved⟩ := ngxPallocBlock_some hs hA hsize (hblock b rfl)
          refine .inr (.inr ⟨b, _, pool', rfl, hpool', ?_, hcarved⟩)
          have hb := (hblock b rfl).1
          rw [sizeofPoolData]
          omega

end NginxDtls.Palloc
