import NginxDtls.RadixMatch

/-! The 128-bit functions of `ngx_radix_tree.c` with the bytes of the key and of the mask in memory, 16 of each. A byte
behind them cannot be read. On 16 bytes the insertion and the deletion are those of the loops over sides; the search is
the search over sides as long as the tree has no node for all 128 bits of the key. -/

namespace NginxDtls.Radix

/-- `key[i]`, within the array. -/
abbrev Key128 : Type := Vector UInt8 16

/-- The bytes of a key, with what stands behind them. -/
def Key128.bytes (k : Key128) : ℕ → UInt8 := fun i => k[i]?.getD 0

namespace RadixTree

/-- The first loop of `ngx_radix128tree_insert`: the node, whether `next` is a node, and `i` and `bit`. `none` is a byte
that is read outside the key or the mask. -/
def descend128 (t : RadixTree) (key mask : Key128) : ℕ → ℕ → UInt8 → ℕ → Option (ℕ × Bool × ℕ × UInt8)
  | 0, _, _, _ => none
  | fuel + 1, i, bit, node =>
    match mask[i]? with
    | none => none
    | some m =>
      if bit &&& m = 0 then some (node, true, i, bit)
      else
        match key[i]? with
        | none => none
        | some k =>
          match t.child node (k &&& bit ≠ 0) with
          | none => some (node, false, i, bit)
          | some next =>
            if bit >>> 1 = 0 then
              if i + 1 = 16 then some (next, true, 16, 0) else descend128 t key mask fuel (i + 1) 0x80 next
            else descend128 t key mask fuel i (bit >>> 1) next

/-- The second loop of `ngx_radix128tree_insert`, and the value. -/
def extend128 (pagesize : ℕ) (value : UInt64) (key mask : Key128) :
    ℕ → RadixTree → ℕ → ℕ → UInt8 → ℕ → Option (Ret × RadixTree)
  | 0, _, _, _, _, _ => none
  | fuel + 1, t, pages, i, bit, node =>
    match mask[i]? with
    | none => none
    | some m =>
      if bit &&& m = 0 then some (.ok, t.setValue node value)
      else
        match alloc pagesize t pages with
        | none => some (.error, t)
        | some (next, t, pages) =>
          match key[i]? with
          | none => none
          | some k =>
            let t := (t.put next ⟨none, none, some node, radixNoValue⟩).setChild node (k &&& bit ≠ 0) next
            if bit >>> 1 = 0 then
              if i + 1 = 16 then some (.ok, t.setValue next value)
              else extend128 pagesize value key mask fuel t pages (i + 1) 0x80 next
            else extend128 pagesize value key mask fuel t pages i (bit >>> 1) next

/-- The first loop of `ngx_radix128tree_delete`. -/
def walk128 (t : RadixTree) (key mask : Key128) : ℕ → ℕ → UInt8 → Option ℕ → Option (Option ℕ)
  | 0, _, _, _ => none
  | _ + 1, _, _, none => some none
  | fuel + 1, i, bit, some node =>
    match mask[i]? with
    | none => none
    | some m =>
      if bit &&& m = 0 then some (some node)
      else
        match key[i]? with
        | none => none
        | some k =>
          if bit >>> 1 = 0 then
            if i + 1 = 16 then some (t.child node (k &&& bit ≠ 0))
            else walk128 t key mask fuel (i + 1) 0x80 (t.child node (k &&& bit ≠ 0))
          else walk128 t key mask fuel i (bit >>> 1) (t.child node (k &&& bit ≠ 0))

/-- The loop of `ngx_radix128tree_find`. -/
def find128 (t : RadixTree) (key : Key128) : ℕ → ℕ → UInt8 → Option ℕ → UInt64 → Option UInt64
  | _, _, _, none, value => some value
  | 0, _, _, some _, _ => none
  | fuel + 1, i, bit, some node, value =>
    match key[i]? with
    | none => none
    | some k =>
      if bit >>> 1 = 0 then
        find128 t key fuel (i + 1) 0x80 (t.child node (k &&& bit ≠ 0))
          (if (t.node node).value ≠ radixNoValue then (t.node node).value else value)
      else
        find128 t key fuel i (bit >>> 1) (t.child node (k &&& bit ≠ 0))
          (if (t.node node).value ≠ radixNoValue then (t.node node).value else value)

/-- `ngx_radix128tree_insert` -/
def ngxRadix128treeInsert (pagesize : ℕ) (t : RadixTree) (key mask : Key128) (value : UInt64) (pages : ℕ) :
    Option (Ret × RadixTree) :=
  match t.descend128 key mask 129 0 0x80 t.root with
  | none => none
  | some (node, true, _, _) =>
    if (t.node node).value ≠ radixNoValue then some (.busy, t) else some (.ok, t.setValue node value)
  | some (node, false, i, bit) => extend128 pagesize value key mask 129 t pages i bit node

/-- `ngx_radix128tree_delete` -/
def ngxRadix128treeDelete (t : RadixTree) (key mask : Key128) : Option (Ret × RadixTree) :=
  match t.walk128 key mask 129 0 0x80 (some t.root) with
  | none => none
  | some none => some (.error, t)
  | some (some node) =>
    if (t.node node).right.isSome ∨ (t.node node).left.isSome then
      if (t.node node).value ≠ radixNoValue then some (.ok, t.setValue node radixNoValue) else some (.error, t)
    else (prune 128 t node).map (.ok, ·)

/-- `ngx_radix128tree_find` -/
def ngxRadix128treeFind (t : RadixTree) (key : Key128) : Option UInt64 :=
  t.find128 key 129 0 0x80 (some t.root) radixNoValue

end RadixTree

/-! ### The rounds of a walk -/

theorem Key128.getElem?_eq_bytes (k : Key128) {i : ℕ} (hi : i < 16) : k[i]? = some (k.bytes i) := by
  rw [Key128.bytes, Vector.getElem?_eq_getElem hi]
  rfl

theorem Key128.getElem?_sixteen (k : Key128) : k[16]? = none := Vector.getElem?_eq_none (Nat.le_refl 16)

/-- Eight rounds for every byte. -/
theorem bit128_byte {n : ℕ} (hn : n < 128) : (bit128 n).1 = n / 8 ∧ ((bit128 n).2 >>> 1 = 0 ↔ n % 8 = 7) := by
  have hall : ∀ n < 128, (bit128 n).1 = n / 8 ∧ ((bit128 n).2 >>> 1 = 0 ↔ n % 8 = 7) := by decide
  exact hall n hn

theorem bit128_lt {n : ℕ} (hn : n < 128) : (bit128 n).1 < 16 := by
  rw [(bit128_byte hn).1]
  omega

/-- The last bit of the last byte is that of round 127. -/
theorem bit128_last {n : ℕ} (hn : n < 128) (hbit : (bit128 n).2 >>> 1 = 0) :
    (bit128 n).1 + 1 = 16 ↔ n + 1 = 128 := by
  have hend := (bit128_byte hn).2.mp hbit
  rw [(bit128_byte hn).1]
  omega

theorem bit128_inner {n : ℕ} (hn : n < 128) (hbit : (bit128 n).2 >>> 1 ≠ 0) : n + 1 < 128 := by
  have hend := mt (bit128_byte hn).2.mpr hbit
  omega

theorem bit128_succ_zero {n : ℕ} (hbit : (bit128 n).2 >>> 1 = 0) : bit128 (n + 1) = ((bit128 n).1 + 1, 0x80) := by
  rw [bit128, if_pos hbit]

theorem bit128_succ_ne_zero {n : ℕ} (hbit : (bit128 n).2 >>> 1 ≠ 0) :
    bit128 (n + 1) = ((bit128 n).1, (bit128 n).2 >>> 1) := by
  rw [bit128, if_neg hbit]

theorem bit128_end : (bit128 128).1 = 16 := by
  have hn : 127 < 128 := by decide
  have hzero := (bit128_byte hn).2.mpr rfl
  rw [bit128_succ_zero hzero]
  exact (bit128_last hn hzero).mpr rfl

theorem side_mask128 (mask : ℕ → UInt8) (n : ℕ) :
    loop128.side mask n = true ↔ ¬(bit128 n).2 &&& mask (bit128 n).1 = 0 := by
  rw [UInt8.and_comm]
  exact decide_eq_true_iff

/-- Below a node without children there is nothing. -/
theorem Rep.leaf {width : ℕ} {t : RadixTree} {P : Paths} {freed : List ℕ} (h : Rep width t P freed) {p : List Bool}
    {n : ℕ} (hp : P p = some n) (hchild : ¬((t.node n).right.isSome = true ∨ (t.node n).left.isSome = true)) (side : Bool) :
    P (side :: p) = none := by
  rw [not_or] at hchild
  rw [← h.child hp side]
  cases side with
  | true => simpa [RadixTree.child] using hchild.1
  | false => simpa [RadixTree.child] using hchild.2

namespace RadixTree

variable {t : RadixTree} {key mask : Key128} {fuel n : ℕ}

/-- The sides that the 128-bit loops take from a round on. -/
def sides128 (key mask : Key128) (n : ℕ) : List Bool := loop128.sidesFrom key.bytes mask.bytes (128 - n) n

theorem sides128_end (hn : n < 128) (hmask : (bit128 n).2 &&& mask.bytes (bit128 n).1 = 0) :
    sides128 key mask n = [] := by
  obtain ⟨k, hk⟩ : ∃ k, 128 - n = k + 1 := ⟨127 - n, by omega⟩
  rw [sides128, hk, KeyLoop.sidesFrom, if_neg fun h => (side_mask128 mask.bytes n).mp h hmask]

theorem sides128_next (hn : n < 128) (hmask : ¬(bit128 n).2 &&& mask.bytes (bit128 n).1 = 0) :
    sides128 key mask n = loop128.side key.bytes n :: sides128 key mask (n + 1) := by
  obtain ⟨k, hk⟩ : ∃ k, 128 - n = k + 1 := ⟨127 - n, by omega⟩
  rw [sides128, hk, KeyLoop.sidesFrom, if_pos ((side_mask128 mask.bytes n).mpr hmask), sides128,
    show 128 - (n + 1) = k by omega]

theorem sides128_last : sides128 key mask 128 = [] := rfl

theorem walk128_eq (hn : n < 128) (hfuel : 129 ≤ n + fuel) (node : Option ℕ) :
    t.walk128 key mask fuel (bit128 n).1 (bit128 n).2 node = some (t.walk node (sides128 key mask n)) := by
  induction fuel generalizing n node with
  | zero => omega
  | succ fuel ih =>
      cases node with
      | none => cases sides128 key mask n <;> rfl
      | some node =>
          rw [walk128, mask.getElem?_eq_bytes (bit128_lt hn)]
          dsimp only
          by_cases hmask : (bit128 n).2 &&& mask.bytes (bit128 n).1 = 0
          · rw [if_pos hmask, sides128_end hn hmask]
            rfl
          · rw [if_neg hmask, key.getElem?_eq_bytes (bit128_lt hn), sides128_next hn hmask, walk]
            dsimp only
            by_cases hbit : (bit128 n).2 >>> 1 = 0
            · rw [if_pos hbit]
              by_cases hlast : (bit128 n).1 + 1 = 16
              · rw [if_pos hlast, (bit128_last hn hbit).mp hlast, sides128_last]
                rfl
              · have hnext := mt (bit128_last hn hbit).mpr hlast
                have hrest := @ih (n + 1) (by omega) (by omega)
                rw [bit128_succ_zero hbit] at hrest
                rw [if_neg hlast]
                exact hrest _
            · have hrest := @ih (n + 1) (bit128_inner hn hbit) (by omega)
              rw [bit128_succ_ne_zero hbit] at hrest
              rw [if_neg hbit]
              exact hrest _

/-- The descent ends where the one over sides ends, in the round whose side is the first one left. -/
theorem descend128_eq (hn : n < 128) (hfuel : 129 ≤ n + fuel) (node : ℕ) :
    ∃ i bit, t.descend128 key mask fuel (bit128 n).1 (bit128 n).2 node =
        some ((t.descend node (sides128 key mask n)).1, decide ((t.descend node (sides128 key mask n)).2 = []), i, bit) ∧
      ((t.descend node (sides128 key mask n)).2 ≠ [] → ∃ m, n ≤ m ∧ m < 128 ∧ bit128 m = (i, bit) ∧
        (t.descend node (sides128 key mask n)).2 = sides128 key mask m) := by
  induction fuel generalizing n node with
  | zero => omega
  | succ fuel ih =>
      rw [descend128, mask.getElem?_eq_bytes (bit128_lt hn)]
      dsimp only
      by_cases hmask : (bit128 n).2 &&& mask.bytes (bit128 n).1 = 0
      · rw [if_pos hmask, sides128_end hn hmask]
        exact ⟨_, _, rfl, fun h => absurd rfl h⟩
      · rw [if_neg hmask, key.getElem?_eq_bytes (bit128_lt hn), sides128_next hn hmask, descend]
        have hside : loop128.side key.bytes n = decide (key.bytes (bit128 n).1 &&& (bit128 n).2 ≠ 0) := rfl
        dsimp only
        rw [← hside]
        cases hchild : t.child node (loop128.side key.bytes n) with
        | none =>
            refine ⟨(bit128 n).1, (bit128 n).2, rfl, fun _ => ⟨n, Nat.le_refl n, hn, rfl, ?_⟩⟩
            rw [sides128_next hn hmask]
        | some next =>
            dsimp only
            by_cases hbit : (bit128 n).2 >>> 1 = 0
            · rw [if_pos hbit]
              by_cases hlast : (bit128 n).1 + 1 = 16
              · rw [if_pos hlast, (bit128_last hn hbit).mp hlast, sides128_last]
                exact ⟨16, 0, rfl, fun h => absurd rfl h⟩
              · have hnext := mt (bit128_last hn hbit).mpr hlast
                obtain ⟨i, bit, hrun, hend⟩ := @ih (n + 1) (by omega) (by omega) next
                rw [bit128_succ_zero hbit] at hrun
                rw [if_neg hlast]
                refine ⟨i, bit, hrun, fun h => ?_⟩
                obtain ⟨m, hle, hm⟩ := hend h
                exact ⟨m, by omega, hm⟩
            · obtain ⟨i, bit, hrun, hend⟩ := @ih (n + 1) (bit128_inner hn hbit) (by omega) next
              rw [bit128_succ_ne_zero hbit] at hrun
              rw [if_neg hbit]
              refine ⟨i, bit, hrun, fun h => ?_⟩
              obtain ⟨m, hle, hm⟩ := hend h
              exact ⟨m, by omega, hm⟩

theorem extend128_eq (pagesize : ℕ) (value : UInt64) (hn : n < 128) (hfuel : 129 ≤ n + fuel) (t : RadixTree)
    (pages node : ℕ) : extend128 pagesize value key mask fuel t pages (bit128 n).1 (bit128 n).2 node =
      some (extend pagesize value t pages node (sides128 key mask n)) := by
  induction fuel generalizing n t pages node with
  | zero => omega
  | succ fuel ih =>
      rw [extend128, mask.getElem?_eq_bytes (bit128_lt hn)]
      dsimp only
      by_cases hmask : (bit128 n).2 &&& mask.bytes (bit128 n).1 = 0
      · rw [if_pos hmask, sides128_end hn hmask]
        rfl
      · rw [if_neg hmask, sides128_next hn hmask, extend]
        cases halloc : alloc pagesize t pages with
        | none => rfl
        | some found =>
            obtain ⟨next, t, pages⟩ := found
            dsimp only
            rw [key.getElem?_eq_bytes (bit128_lt hn)]
            have hside : loop128.side key.bytes n = decide (key.bytes (bit128 n).1 &&& (bit128 n).2 ≠ 0) := rfl
            dsimp only
            rw [← hside]
            by_cases hbit : (bit128 n).2 >>> 1 = 0
            · rw [if_pos hbit]
              by_cases hlast : (bit128 n).1 + 1 = 16
              · rw [if_pos hlast, (bit128_last hn hbit).mp hlast, sides128_last]
                rfl
              · have hnext := mt (bit128_last hn hbit).mpr hlast
                have hrest := @ih (n + 1) (by omega) (by omega)
                rw [bit128_succ_zero hbit] at hrest
                rw [if_neg hlast]
                exact hrest _ _ _
            · have hrest := @ih (n + 1) (bit128_inner hn hbit) (by omega)
              rw [bit128_succ_ne_zero hbit] at hrest
              rw [if_neg hbit]
              exact hrest _ _ _

/-- The sides of all bits of a key from a bit on. -/
def allSides128 (key : Key128) (n : ℕ) : List Bool := (List.range' n (128 - n)).map (loop128.side key.bytes)

theorem allSides128_next (key : Key128) (hn : n < 128) :
    allSides128 key n = loop128.side key.bytes n :: allSides128 key (n + 1) := by
  obtain ⟨k, hk⟩ : ∃ k, 128 - n = k + 1 := ⟨127 - n, by omega⟩
  rw [allSides128, hk, List.range'_succ, List.map_cons, allSides128, show 128 - (n + 1) = k by omega]

/-- The search reads the byte behind the key below a node for all of its bits, and nowhere else. -/
theorem find128_eq (hn : n ≤ 128) (hfuel : 129 ≤ n + fuel) (node : Option ℕ) (value : UInt64) :
    t.find128 key fuel (bit128 n).1 (bit128 n).2 node value =
      if t.walk node (allSides128 key n) = none then t.findLoop (loop128.side key.bytes) fuel n node value else none := by
  induction fuel generalizing n node value with
  | zero => omega
  | succ fuel ih =>
      cases node with
      | none =>
          have hwalk : t.walk none (allSides128 key n) = none := by cases allSides128 key n <;> rfl
          rw [if_pos hwalk]
          rfl
      | some node =>
          rw [find128]
          rcases Nat.eq_or_lt_of_le hn with rfl | hn
          · have hall : allSides128 key 128 = [] := by rw [allSides128, Nat.sub_self, List.range'_zero, List.map_nil]
            rw [bit128_end, key.getElem?_sixteen, hall, walk, if_neg (Option.some_ne_none node)]
          · rw [key.getElem?_eq_bytes (bit128_lt hn), allSides128_next key hn, walk, findLoop]
            have hside : loop128.side key.bytes n = decide (key.bytes (bit128 n).1 &&& (bit128 n).2 ≠ 0) := rfl
            dsimp only
            rw [← hside]
            by_cases hbit : (bit128 n).2 >>> 1 = 0
            · have hrest := @ih (n + 1) (by omega) (by omega)
              rw [bit128_succ_zero hbit] at hrest
              rw [if_pos hbit]
              exact hrest _ _
            · have hrest := @ih (n + 1) (by omega) (by omega)
              rw [bit128_succ_ne_zero hbit] at hrest
              rw [if_neg hbit]
              exact hrest _ _

/-! ### The operations -/

theorem ngxRadix128treeInsert_eq (pagesize : ℕ) (t : RadixTree) (key mask : Key128) (value : UInt64) (pages : ℕ) :
    ngxRadix128treeInsert pagesize t key mask value pages =
      some (loop128.insert pagesize t key.bytes mask.bytes value pages) := by
  obtain ⟨i, bit, hrun, hend⟩ := @descend128_eq t key mask 129 0 (by decide) (by decide) t.root
  rw [ngxRadix128treeInsert, show t.descend128 key mask 129 0 0x80 t.root = _ from hrun, KeyLoop.insert, RadixTree.insert,
    show loop128.sides key.bytes mask.bytes = sides128 key mask 0 from rfl]
  generalize t.descend t.root (sides128 key mask 0) = ended at hend ⊢
  obtain ⟨node, rest⟩ := ended
  cases rest with
  | nil =>
      rw [decide_eq_true rfl]
      dsimp only
      split <;> rfl
  | cons side rest =>
      obtain ⟨m, -, hm, hbit, hsides⟩ := hend (List.cons_ne_nil side rest)
      dsimp only at hsides ⊢
      rw [decide_eq_false (List.cons_ne_nil side rest), hsides]
      have hextend := @extend128_eq key mask 129 m pagesize value hm (by omega) t pages node
      rw [hbit] at hextend
      exact hextend

theorem prune_mono {fuel : ℕ} {t t' : RadixTree} {node : ℕ} (h : prune fuel t node = some t') (k : ℕ) :
    prune (fuel + k) t node = some t' := by
  induction fuel generalizing t node with
  | zero => cases h
  | succ fuel ih =>
      rw [Nat.succ_add]
      rw [prune] at h ⊢
      cases hparent : (t.node node).parent with
      | none =>
          rw [hparent] at h
          cases h
      | some parent =>
          rw [hparent] at h
          dsimp only at h ⊢
          split
          · rename_i hstop
            rwa [if_pos hstop] at h
          · rename_i hgo
            rw [if_neg hgo] at h
            exact ih h

/-- A node without a parent is not unlinked. -/
theorem prune_root {t : RadixTree} {node : ℕ} (h : (t.node node).parent = none) (fuel : ℕ) : prune fuel t node = none := by
  cases fuel with
  | zero => rfl
  | succ fuel => rw [prune, h]

/-- The deletion is the one over sides, which climbs as far as there are sides. -/
theorem ngxRadix128treeDelete_eq {T : Table} {t : RadixTree} (h : Holds loop128 t T) (key mask : Key128) :
    ngxRadix128treeDelete t key mask = loop128.delete t key.bytes mask.bytes := by
  obtain ⟨P, freed, hrep, -⟩ := h
  have hwalk := @walk128_eq t key mask 129 0 (by decide) (by decide) (some t.root)
  rw [ngxRadix128treeDelete, show t.walk128 key mask 129 0 0x80 (some t.root) = _ from hwalk, KeyLoop.delete,
    RadixTree.delete, show loop128.sides key.bytes mask.bytes = sides128 key mask 0 from rfl]
  cases hnode : t.walk (some t.root) (sides128 key mask 0) with
  | none => rfl
  | some node =>
      dsimp only
      split
      · rfl
      · rename_i hchild
        have hend := hrep.walk hrep.root (sides128 key mask 0)
        rw [hnode, List.append_nil] at hend
        have hlength : (sides128 key mask 0).length ≤ 128 := KeyLoop.sidesFrom_length ..
        by_cases hroot : sides128 key mask 0 = []
        · rw [hroot] at hnode ⊢
          cases hnode
          rw [prune_root hrep.top, prune_root hrep.top]
        · have hleaf := hrep.leaf hend.symm hchild
          obtain ⟨t', -, -, hrun, -⟩ := @Rep.prune _ t P freed hrep _ node (sides128 key mask 0).length
            (by simpa using hroot) hend.symm hleaf (by rw [List.length_reverse])
          have hlong := prune_mono hrun (128 - (sides128 key mask 0).length)
          rw [Nat.add_sub_cancel' hlength] at hlong
          rw [hrun, hlong]

theorem ngxRadix128treeFind_eq (t : RadixTree) (key : Key128) : ngxRadix128treeFind t key =
    if t.walk (some t.root) (allSides128 key 0) = none then loop128.find t key.bytes else none :=
  @find128_eq t key 129 0 (Nat.zero_le _) (Nat.le_refl _) (some t.root) radixNoValue

end RadixTree

end NginxDtls.Radix
