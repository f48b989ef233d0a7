import NginxDtls.HpackTable
import NginxDtls.Run

/-! The dynamic table is a list of headers, of which the oldest ones are given up when there is no room: the array in a circle
and the storage in a circle never show, and an entry whose address is used again is not in the list any more. -/

namespace NginxDtls.Hpack

open RingBuffer Run

/-! ### The list -/

def Header.cost (h : Header) : ℕ := h.bytes + 32

def bytes (l : List Header) : ℕ := (l.map Header.bytes).sum

def cost (l : List Header) : ℕ := (l.map Header.cost).sum

/-- The oldest headers are given up until the others fit. -/
def trim (limit : ℕ) : List Header → List Header
  | [] => []
  | h :: l => if cost (h :: l) > limit then trim limit l else h :: l

/-- The headers, the oldest one first, and the most that they may cost. -/
structure Dynamic where
  live : List Header
  size : ℕ

def Dynamic.add (d : Dynamic) (h : Header) : Dynamic :=
  if h.cost > d.size then { d with live := [] } else { d with live := trim (d.size - h.cost) d.live ++ [h] }

def Dynamic.resize (size : ℕ) (d : Dynamic) : Dynamic := ⟨trim size d.live, size⟩

/-- Until a header is added there is no table, and its size is not kept. -/
def listStep (d : Option Dynamic) : Event → Option Dynamic
  | .add header => some ((d.getD ⟨[], tableSize⟩).add header)
  | .size size => if size > tableSize then d else d.map (Dynamic.resize size)

/-- The headers that have an index, from 1 on: the static ones, then the others, the newest one first. -/
def indexed (d : Option Dynamic) (index : ℕ) : Option Header :=
  if index = 0 then none else (ngxHttpV2StaticTable ++ ((d.map Dynamic.live).getD []).reverse)[index - 1]?

theorem cost_cons (h : Header) (l : List Header) : cost (h :: l) = h.cost + cost l := by
  simp [cost]

theorem bytes_cons (h : Header) (l : List Header) : bytes (h :: l) = h.bytes + bytes l := by
  simp [bytes]

theorem bytes_append (l l' : List Header) : bytes (l ++ l') = bytes l + bytes l' := by
  simp [bytes]

theorem cost_append (l l' : List Header) : cost (l ++ l') = cost l + cost l' := by
  simp [cost]

theorem bytes_le_cost (l : List Header) : bytes l ≤ cost l := by
  induction l with
  | nil => exact le_refl 0
  | cons h l ih =>
      rw [bytes_cons, cost_cons, Header.cost]
      omega

theorem trim_of_le {limit : ℕ} {l : List Header} (h : cost l ≤ limit) : trim limit l = l := by
  cases l with
  | nil => rfl
  | cons x l => exact if_neg (not_lt.mpr h)

/-! ### The table shows the list -/

/-- An entry has the strings of a header, which are at `a` in the row of all that was put in the storage. -/
structure EntryAt (entry : Entry) (row : ℕ → UInt8) (a : ℕ) (h : Header) : Prop where
  nameLen : entry.nameLen = h.name.length
  valueLen : entry.valueLen = h.value.length
  nameData : entry.nameData ≤ tableSize ∧ entry.nameData % tableSize = a % tableSize
  valueData : entry.valueData ≤ tableSize ∧ entry.valueData % tableSize = (a + h.name.length) % tableSize
  name : slice row a h.name.length = h.name
  value : slice row (a + h.name.length) h.value.length = h.value

/-- The entries from `k` on in the row of all that were put in the array, with their strings from `a` on. -/
def Placed (pool : ℕ → Entry) (row : ℕ → UInt8) (ids : ℕ → ℕ) : ℕ → ℕ → List Header → Prop
  | _, _, [] => True
  | k, a, h :: l => EntryAt (pool (ids k)) row a h ∧ Placed pool row ids (k + 1) (a + h.bytes) l

/-- The array has the addresses of the last entries: those that are given up and not used again, and `n` others. -/
structure Slots (t : Table) (ids : ℕ → ℕ) (n : ℕ) : Prop where
  window : Window t.allocated t.entries ids t.reused t.added
  distinct : ∀ j k, t.reused ≤ j → j < k → k < t.added → ids j ≠ ids k
  fresh : ∀ k, t.reused ≤ k → k < t.added → ids k < t.fresh
  reused : t.reused ≤ t.deleted
  count : t.deleted + n = t.added
  room : t.added ≤ t.reused + t.allocated
  allocated : 0 < t.allocated

/-- The table shows the list, but for `spare`, which is accounted for a header that is not there yet. -/
structure Shows (t : Table) (d : Dynamic) (row : ℕ → UInt8) (ids : ℕ → ℕ) (a spare : ℕ) : Prop where
  started : t.started = true
  slots : Slots t ids d.live.length
  placed : Placed t.pool row ids t.deleted a d.live
  strings : Window tableSize t.storage row a (a + bytes d.live)
  pos : t.pos ≤ tableSize ∧ t.pos % tableSize = (a + bytes d.live) % tableSize
  account : t.free + cost d.live + spare = t.size
  size : t.size = d.size
  bound : d.size ≤ tableSize

variable {t : Table} {d : Dynamic} {row row' : ℕ → UInt8} {ids ids' : ℕ → ℕ} {a spare k n : ℕ} {l : List Header} {h : Header}
  {pool pool' : ℕ → Entry}

theorem EntryAt.congr {entry : Entry} (hentry : EntryAt entry row a h) (hrow : ∀ i < h.bytes, row' (a + i) = row (a + i)) :
    EntryAt entry row' a h := by
  have hname : slice row' a h.name.length = slice row a h.name.length :=
    slice_congr fun i hi => hrow i (by rw [Header.bytes]; omega)
  have hvalue : slice row' (a + h.name.length) h.value.length = slice row (a + h.name.length) h.value.length :=
    slice_congr fun i hi => by
      rw [Nat.add_assoc]
      exact hrow (h.name.length + i) (by rw [Header.bytes]; omega)
  exact { hentry with name := hname.trans hentry.name, value := hvalue.trans hentry.value }

/-- What happens to other entries and behind the strings does not matter. -/
theorem Placed.congr (hplaced : Placed pool row ids k a l) (hpool : ∀ j, k ≤ j → j < k + l.length → pool' (ids' j) = pool (ids j))
    (hrow : ∀ i, a ≤ i → i < a + bytes l → row' i = row i) : Placed pool' row' ids' k a l := by
  induction l generalizing k a with
  | nil => trivial
  | cons h l ih =>
      obtain ⟨hentry, hrest⟩ := hplaced
      rw [List.length_cons] at hpool
      rw [bytes_cons] at hrow
      refine ⟨?_, ih hrest (fun j hj hlt => hpool j (by omega) (by omega)) fun i hi hlt => hrow i (by omega) (by omega)⟩
      rw [hpool k (le_refl k) (by omega)]
      exact hentry.congr fun i hi => hrow (a + i) (by omega) (by omega)

theorem Placed.append (hplaced : Placed pool row ids k a l)
    (hentry : EntryAt (pool (ids (k + l.length))) row (a + bytes l) h) : Placed pool row ids k a (l ++ [h]) := by
  induction l generalizing k a with
  | nil => exact ⟨hentry, trivial⟩
  | cons h' l ih =>
      obtain ⟨hfirst, hrest⟩ := hplaced
      refine ⟨hfirst, ih hrest ?_⟩
      rw [List.length_cons, bytes_cons] at hentry
      rw [Nat.add_right_comm, Nat.add_assoc a]
      exact hentry

/-- The same entries under other numbers. -/
theorem Placed.shift {n : ℕ} (hplaced : Placed pool row ids (n + k) a l) : Placed pool row (fun j => ids (n + j)) k a l := by
  induction l generalizing k a with
  | nil => trivial
  | cons h l ih => exact ⟨hplaced.1, ih hplaced.2⟩

theorem Placed.get (hplaced : Placed pool row ids k a l) {i : ℕ} (hi : i < l.length) :
    EntryAt (pool (ids (k + i))) row (a + bytes (l.take i)) l[i] := by
  induction l generalizing k a i with
  | nil => exact absurd hi (Nat.not_lt_zero i)
  | cons h l ih =>
      cases i with
      | zero => exact hplaced.1
      | succ i =>
          have hget := ih hplaced.2 (Nat.lt_of_succ_lt_succ hi)
          rw [List.take_succ_cons, bytes_cons, ← Nat.add_assoc a, ← Nat.add_assoc k, Nat.add_right_comm k]
          exact hget

/-! ### Giving up entries -/

theorem Shows.delete (hs : Shows t ⟨h :: l, n⟩ row ids a spare) : Shows t.delete ⟨l, n⟩ row ids (a + h.bytes) spare ∧
    t.delete.free = t.free + h.cost := by
  obtain ⟨hentry, hrest⟩ := hs.placed
  have hcount := hs.slots.count
  have hreused := hs.slots.reused
  simp only [List.length_cons] at hcount
  have hslot : t.entries (t.deleted % t.allocated) = ids t.deleted := hs.slots.window t.deleted hreused (by omega)
  have hcost : 32 + (t.pool (t.entries (t.deleted % t.allocated))).nameLen +
      (t.pool (t.entries (t.deleted % t.allocated))).valueLen = h.cost := by
    rw [hslot, hentry.nameLen, hentry.valueLen, Header.cost, Header.bytes]
    omega
  have hfree : t.delete.free = t.free + h.cost := congrArg (t.free + ·) hcost
  have hsum : a + bytes (h :: l) = a + h.bytes + bytes l := by rw [bytes_cons, Nat.add_assoc]
  have hstrings := hs.strings
  have hpos := hs.pos
  have haccount := hs.account
  rw [hsum] at hstrings hpos
  rw [cost_cons] at haccount
  refine ⟨?_, hfree⟩
  exact { hs with
    slots := { hs.slots with
      reused := by show t.reused ≤ t.deleted + 1; omega
      count := by show t.deleted + 1 + l.length = t.added; omega }
    placed := hrest
    strings := hstrings.mono (Nat.le_add_right _ _) (le_refl _)
    pos := hpos
    account := by rw [hfree]; show t.free + h.cost + cost l + spare = t.size; omega }

/-- Entries are given up until what is needed is free. -/
theorem Shows.giveUp (hs : Shows t d row ids a 0) (needed : ℤ) (limit rounds : ℕ) (hlimit : (limit : ℤ) = d.size - needed)
    (hrounds : needed ≤ t.free + rounds) :
    ∃ a, Shows (deleteWhile needed rounds t) ⟨trim limit d.live, d.size⟩ row ids a 0 ∧
      needed ≤ (deleteWhile needed rounds t).free := by
  obtain ⟨live, size⟩ := d
  induction rounds generalizing t a live with
  | zero =>
      have haccount := hs.account
      have hsize := hs.size
      change t.free + cost live + 0 = t.size at haccount
      change t.size = size at hsize
      change (limit : ℤ) = size - needed at hlimit
      have htrim : trim limit live = live := trim_of_le (by omega)
      refine ⟨a, ?_, by rw [deleteWhile]; omega⟩
      rw [deleteWhile, htrim]
      exact hs
  | succ rounds ih =>
      have haccount := hs.account
      have hsize := hs.size
      change t.free + cost live + 0 = t.size at haccount
      change t.size = size at hsize
      change (limit : ℤ) = size - needed at hlimit
      rw [deleteWhile]
      by_cases hneeded : needed > t.free
      · rw [if_pos hneeded]
        cases live with
        | nil =>
            rw [cost, List.map_nil, List.sum_nil] at haccount
            omega
        | cons h l =>
            obtain ⟨hdelete, hfree⟩ := hs.delete
            have hcost : 32 ≤ h.cost := Nat.le_add_left _ _
            have hstep := ih (by omega) l hdelete hlimit
            have htrim : trim limit (h :: l) = trim limit l := if_pos (by omega)
            rw [htrim]
            exact hstep
      · rw [if_neg hneeded]
        have htrim : trim limit live = live := trim_of_le (by omega)
        refine ⟨a, ?_, not_lt.mp hneeded⟩
        rw [htrim]
        exact hs

theorem Shows.resize {size : ℕ} (hs : Shows t d row ids a 0) (hle : size ≤ tableSize) :
    ∃ a, Shows (ngxHttpV2TableSize t size).1 (d.resize size) row ids a 0 := by
  have hsize := hs.size
  rw [ngxHttpV2TableSize, if_neg (not_lt.mpr hle)]
  obtain ⟨a', hs', hneeded⟩ := hs.giveUp (t.size - size) size t.size (by omega) (by omega)
  have haccount := hs'.account
  have hsize' := hs'.size
  change _ = d.size at hsize'
  refine ⟨a', { hs' with slots := { hs'.slots with }, account := ?_, size := rfl, bound := hle }⟩
  change (((deleteWhile (t.size - size) t.size t).free : ℤ) - (t.size - size)).toNat + cost (trim size d.live) + 0 = size
  change (deleteWhile (t.size - size) t.size t).free + cost (trim size d.live) + 0 = _ at haccount
  omega

/-- The room for a header, or no entry at all if it needs more than there is. -/
theorem Shows.account_for (hs : Shows t d row ids a 0) (h : Header) :
    if h.cost > d.size then
      (ngxHttpV2TableAccount t h.bytes).2 = false ∧
        ∃ a, Shows (ngxHttpV2TableAccount t h.bytes).1 { d with live := [] } row ids a 0
    else
      (ngxHttpV2TableAccount t h.bytes).2 = true ∧
        ∃ a, Shows (ngxHttpV2TableAccount t h.bytes).1 { d with live := trim (d.size - h.cost) d.live } row ids a h.cost := by
  have hsize := hs.size
  have haccount := hs.account
  have hcost : h.bytes + 32 = h.cost := rfl
  rw [ngxHttpV2TableAccount, hcost]
  by_cases hfits : h.cost ≤ t.free
  · rw [if_neg (by omega), if_pos hfits]
    refine ⟨rfl, a, ?_⟩
    rw [trim_of_le (by omega)]
    exact { hs with
      slots := { hs.slots with }
      account := by show t.free - h.cost + cost d.live + h.cost = t.size; omega }
  · by_cases hlarge : h.cost > d.size
    · rw [if_pos hlarge, if_neg hfits, if_pos (by omega)]
      have hcount := hs.slots.count
      have hreused := hs.slots.reused
      refine ⟨rfl, a + bytes d.live, ?_⟩
      exact { hs with
        slots := { hs.slots with
          reused := by show t.reused ≤ t.added; omega
          count := rfl }
        placed := trivial
        strings := fun k hk hlt => absurd (hk.trans_lt hlt) (lt_irrefl _)
        account := rfl }
    · rw [if_neg hlarge, if_neg hfits, if_neg (by omega)]
      obtain ⟨a', hs', hneeded⟩ := hs.giveUp h.cost (d.size - h.cost) h.cost (by omega) (by omega)
      have haccount' := hs'.account
      refine ⟨rfl, a', { hs' with slots := { hs'.slots with }, account := ?_ }⟩
      change (deleteWhile h.cost h.cost t).free - h.cost + cost (trim (d.size - h.cost) d.live) + h.cost = _
      change (deleteWhile h.cost h.cost t).free + cost (trim (d.size - h.cost) d.live) + 0 = _ at haccount'
      change _ = (deleteWhile h.cost h.cost t).size
      omega

/-! ### A header is added -/

/-- A string is put in the storage: `avail` may be less than what is left before its end, if the string still fits there. -/
theorem put_eq (src : List UInt8) {w avail : ℕ} (hstrings : Window tableSize t.storage row a w)
    (hpos : t.pos ≤ tableSize ∧ t.pos % tableSize = w % tableSize) (haw : a ≤ w) (hroom : w + src.length ≤ a + tableSize)
    (havail : avail = tableSize - t.pos ∨ src.length ≤ avail ∧ avail ≤ tableSize - t.pos) :
    Window tableSize (t.put avail src).1.storage (splice row w src) a (w + src.length) ∧
    ((t.put avail src).1.pos ≤ tableSize ∧ (t.put avail src).1.pos % tableSize = (w + src.length) % tableSize) ∧
    ∀ k ≥ tableSize, (t.put avail src).1.storage k = t.storage k := by
  rw [Table.put]
  by_cases hfits : avail ≥ src.length
  · rw [if_pos hfits]
    refine ⟨hstrings.splice_fit hpos.2 hroom (by omega), ⟨?_, ?_⟩, fun k hk => splice_of_ge (by omega)⟩
    · show t.pos + src.length ≤ tableSize
      omega
    · show (t.pos + src.length) % tableSize = (w + src.length) % tableSize
      rw [Nat.add_mod, hpos.2, ← Nat.add_mod]
  · obtain rfl : avail = tableSize - t.pos := by omega
    rw [if_neg hfits]
    refine ⟨hstrings.splice_wrap haw hpos.1 hpos.2 hroom (by omega), ⟨?_, ?_⟩, fun k hk => ?_⟩
    · show src.length - (tableSize - t.pos) ≤ tableSize
      omega
    · show (src.length - (tableSize - t.pos)) % tableSize = (w + src.length) % tableSize
      have hsum : t.pos + src.length = src.length - (tableSize - t.pos) + tableSize := by omega
      rw [← Nat.add_mod_right (src.length - (tableSize - t.pos)), ← hsum, Nat.add_mod, hpos.2, ← Nat.add_mod]
    · show splice (splice t.storage t.pos (src.take (tableSize - t.pos))) 0 (src.drop (tableSize - t.pos)) k = t.storage k
      have htake : (src.take (tableSize - t.pos)).length ≤ tableSize - t.pos := List.length_take_le _ _
      have hdrop : (src.drop (tableSize - t.pos)).length ≤ tableSize := by
        rw [List.length_drop]
        omega
      rw [splice_of_ge (by omega), splice_of_ge (by omega)]

/-- Both strings of a header. -/
theorem put_header {w : ℕ} (hstrings : Window tableSize t.storage row a w)
    (hpos : t.pos ≤ tableSize ∧ t.pos % tableSize = w % tableSize) (haw : a ≤ w) (hroom : w + h.bytes ≤ a + tableSize) :
    let name := t.put (tableSize - t.pos) h.name
    let value := name.1.put name.2 h.value
    let row' := splice row w (h.name ++ h.value)
    Window tableSize value.1.storage row' a (w + h.bytes) ∧
    (value.1.pos ≤ tableSize ∧ value.1.pos % tableSize = (w + h.bytes) % tableSize) ∧
    EntryAt ⟨h.name.length, t.pos, h.value.length, name.1.pos⟩ row' w h ∧
    ∀ k ≥ tableSize, value.1.storage k = t.storage k := by
  intro name value row'
  have hbytes : h.bytes = h.name.length + h.value.length := rfl
  obtain ⟨hname, hnamePos, hnameOut⟩ := put_eq h.name hstrings hpos haw (by omega) (.inl rfl)
  have havail : name.2 = tableSize - name.1.pos ∨ h.value.length ≤ name.2 ∧ name.2 ≤ tableSize - name.1.pos := by
    simp only [name, Table.put]
    split_ifs with hfits
    · left
      show tableSize - t.pos - h.name.length = tableSize - (t.pos + h.name.length)
      omega
    · right
      show h.value.length ≤ tableSize - h.name.length ∧
        tableSize - h.name.length ≤ tableSize - (h.name.length - (tableSize - t.pos))
      omega
  obtain ⟨hvalue, hvaluePos, hvalueOut⟩ := put_eq (t := name.1) h.value (w := w + h.name.length) hname hnamePos (by omega)
    (by omega) havail
  rw [splice_append, Nat.add_assoc] at hvalue
  rw [Nat.add_assoc] at hvaluePos
  have hlen : (h.name ++ h.value).length = h.name.length + h.value.length := List.length_append
  have hslice : slice row' w (h.name.length + h.value.length) = h.name ++ h.value := by
    rw [← hlen]
    exact slice_splice row w _
  rw [slice_add] at hslice
  obtain ⟨hnameSlice, hvalueSlice⟩ := List.append_inj hslice (length_slice _ _ _)
  exact ⟨hvalue, hvaluePos, ⟨rfl, rfl, hpos, hnamePos, hnameSlice, hvalueSlice⟩,
    fun k hk => (hvalueOut k hk).trans (hnameOut k hk)⟩

/-- The address for a header is that of no entry that may be used again or is in the list. -/
theorem Slots.reuse (hs : Slots t ids n) : Slots t.reuse.1 ids n ∧
    (∀ k, t.reuse.1.reused ≤ k → k < t.added → ids k ≠ t.reuse.2) ∧ t.reuse.2 < t.reuse.1.fresh ∧
    (t.allocated = t.added - t.deleted → t.reuse.1.reused = t.deleted) ∧
    (t.allocated ≠ t.added - t.deleted → t.added < t.reuse.1.reused + t.allocated) := by
  have hreused := hs.reused
  have hroom := hs.room
  have hcount := hs.count
  rw [Table.reuse]
  split_ifs with hsame
  · have hids : ∀ k, t.reused ≤ k → k < t.added → ids k ≠ t.fresh := fun k hk hlt => (hs.fresh k hk hlt).ne
    refine ⟨{ hs with fresh := fun k hk hlt => Nat.lt_succ_of_lt (hs.fresh k hk hlt) }, hids, Nat.lt_succ_self _,
      fun _ => hsame, fun hfull => ?_⟩
    show t.added < t.reused + t.allocated
    omega
  · have hlt : t.reused < t.added := by omega
    have hid : t.entries (t.reused % t.allocated) = ids t.reused := hs.window t.reused (le_refl _) hlt
    refine ⟨?_, fun k hk hklt => ?_, ?_, fun hfull => ?_, fun hfull => ?_⟩
    · exact { hs with
        window := hs.window.mono (Nat.le_succ _) (le_refl _)
        distinct := fun j k hj hjk hk => hs.distinct j k (Nat.le_of_succ_le hj) hjk hk
        fresh := fun k hk hlt => hs.fresh k (Nat.le_of_succ_le hk) hlt
        reused := by show t.reused + 1 ≤ t.deleted; omega
        room := by show t.added ≤ t.reused + 1 + t.allocated; omega }
    · change t.reused + 1 ≤ k at hk
      show ids k ≠ t.entries (t.reused % t.allocated)
      rw [hid]
      exact (hs.distinct t.reused k (le_refl _) hk hklt).symm
    · show t.entries (t.reused % t.allocated) < t.fresh
      rw [hid]
      exact hs.fresh t.reused (le_refl _) hlt
    · show t.reused + 1 = t.deleted
      omega
    · show t.added < t.reused + 1 + t.allocated
      omega

/-- In the array that replaces a full one, the entries of the list are numbered from 0 on. -/
theorem Slots.grow (hs : Slots t ids n) (hfull : t.allocated = t.added - t.deleted) (hreused : t.reused = t.deleted) :
    Slots t.grow (fun k => ids (t.deleted + k)) n ∧ t.grow.deleted = 0 ∧ t.grow.added < t.grow.reused + t.grow.allocated := by
  have hcount := hs.count
  have hallocated := hs.allocated
  rw [Table.grow, if_pos hfull]
  have hindex := Nat.mod_lt t.deleted hallocated
  refine ⟨⟨fun k _ hk => ?_, fun j k _ hjk hk => ?_, fun k _ hk => ?_, le_refl 0, ?_, ?_, ?_⟩, rfl, ?_⟩
  · change k < t.allocated at hk
    show (if k % (t.allocated + 64) < t.allocated - t.deleted % t.allocated then
        t.entries (t.deleted % t.allocated + k % (t.allocated + 64))
      else t.entries (k % (t.allocated + 64) - (t.allocated - t.deleted % t.allocated))) = ids (t.deleted + k)
    have hcell : t.entries ((t.deleted + k) % t.allocated) = ids (t.deleted + k) :=
      hs.window (t.deleted + k) (by omega) (by omega)
    have hk' : k % (t.allocated + 64) = k := Nat.mod_eq_of_lt (by omega)
    rw [hk', ← hcell, ← Nat.mod_add_mod]
    split_ifs with hlow
    · have hsum : (t.deleted % t.allocated + k) % t.allocated = t.deleted % t.allocated + k :=
        Nat.mod_eq_of_lt (by omega)
      rw [hsum]
    · have hsum : t.deleted % t.allocated + k = k - (t.allocated - t.deleted % t.allocated) + t.allocated := by omega
      have hless : k - (t.allocated - t.deleted % t.allocated) < t.allocated := by omega
      rw [hsum, Nat.add_mod_right, Nat.mod_eq_of_lt hless]
  · change k < t.allocated at hk
    exact hs.distinct _ _ (by omega) (by omega) (by omega)
  · change k < t.allocated at hk
    exact hs.fresh _ (by omega) (by omega)
  · show 0 + n = t.allocated
    omega
  · show t.allocated ≤ 0 + (t.allocated + 64)
    omega
  · show 0 < t.allocated + 64
    omega
  · show t.allocated < 0 + (t.allocated + 64)
    omega

/-- An address is put behind the others. -/
theorem Slots.push (hs : Slots t ids n) (hroom : t.added < t.reused + t.allocated) {id : ℕ}
    (hid : ∀ k, t.reused ≤ k → k < t.added → ids k ≠ id) (hfresh : id < t.fresh) :
    Slots { t with entries := Function.update t.entries (t.added % t.allocated) id, added := t.added + 1 }
      (Function.update ids t.added id) (n + 1) := by
  refine ⟨hs.window.push hroom id, fun j k hj hjk hk => ?_, fun k hk hlt => ?_, hs.reused, ?_, hroom, hs.allocated⟩
  · change k < t.added + 1 at hk
    have hj' : j ≠ t.added := by omega
    rw [Function.update_of_ne hj']
    by_cases hkeq : k = t.added
    · rw [hkeq, Function.update_self]
      exact hid j hj (by omega)
    · rw [Function.update_of_ne hkeq]
      exact hs.distinct j k hj hjk (by omega)
  · change k < t.added + 1 at hlt
    by_cases hkeq : k = t.added
    · rw [hkeq, Function.update_self]
      exact hfresh
    · rw [Function.update_of_ne hkeq]
      exact hs.fresh k hk (by omega)
  · show t.deleted + (n + 1) = t.added + 1
    have hcount := hs.count
    omega

/-- Behind `grow` there is room for an address. -/
theorem Slots.room_grow (hs : Slots t ids n) (id : ℕ) (hfull : t.allocated = t.added - t.deleted → t.reused = t.deleted)
    (hroom : t.allocated ≠ t.added - t.deleted → t.added < t.reused + t.allocated)
    (hid : ∀ k, t.reused ≤ k → k < t.added → ids k ≠ id) (hplaced : Placed t.pool row ids t.deleted a l) :
    ∃ ids', Slots t.grow ids' n ∧ t.grow.added < t.grow.reused + t.grow.allocated ∧
      (∀ k, t.grow.reused ≤ k → k < t.grow.added → ids' k ≠ id) ∧ Placed t.pool row ids' t.grow.deleted a l := by
  have hcount := hs.count
  have hallocated := hs.allocated
  by_cases hgrow : t.allocated = t.added - t.deleted
  · obtain ⟨hslots, hdeleted, hless⟩ := hs.grow hgrow (hfull hgrow)
    have hadded : t.grow.added = t.allocated := by rw [Table.grow, if_pos hgrow]
    refine ⟨_, hslots, hless, fun k _ hk => ?_, ?_⟩
    · have hreused := hfull hgrow
      exact hid _ (by omega) (by omega)
    · rw [hdeleted]
      exact hplaced.shift
  · have hsame : t.grow = t := if_neg hgrow
    rw [hsame]
    exact ⟨ids, hs, hroom hgrow, hid, hplaced⟩

theorem grow_fields (t : Table) : t.grow.started = t.started ∧ t.grow.pool = t.pool ∧ t.grow.fresh = t.fresh ∧
    t.grow.storage = t.storage ∧ t.grow.pos = t.pos ∧ t.grow.free = t.free ∧ t.grow.size = t.size := by
  rw [Table.grow]
  split_ifs <;> exact ⟨rfl, rfl, rfl, rfl, rfl, rfl, rfl⟩

theorem reuse_fields (t : Table) : ∃ fresh reused id, t.reuse = ({ t with fresh, reused }, id) := by
  rw [Table.reuse]
  split_ifs <;> exact ⟨_, _, _, rfl⟩

theorem put_fields (t : Table) (avail : ℕ) (src : List UInt8) :
    ∃ storage pos avail', t.put avail src = ({ t with storage, pos }, avail') := by
  rw [Table.put]
  split_ifs <;> exact ⟨_, _, _, rfl⟩

/-- An entry for which there is room in the account. -/
theorem Shows.append {h : Header} {live : List Header} {size : ℕ} (hs : Shows t ⟨live, size⟩ row ids a h.cost) :
    (∃ row ids a, Shows (t.append h) ⟨live ++ [h], size⟩ row ids a 0) ∧
    ∀ k ≥ tableSize, (t.append h).storage k = t.storage k := by
  have hcost := bytes_le_cost live
  have haccount := hs.account
  have hsize := hs.size
  have hbound := hs.bound
  have hh : h.cost = h.bytes + 32 := rfl
  simp only at haccount hsize hbound
  obtain ⟨hslots, hid, hfresh, hfull, hroom⟩ := hs.slots.reuse
  obtain ⟨fresh, reused, id, hreuse⟩ := reuse_fields t
  rw [hreuse] at hslots hid hfresh hfull hroom
  obtain ⟨hstrings, hpos, hentry, hout⟩ := put_header (t := { t with fresh, reused }) (h := h) hs.strings hs.pos
    (Nat.le_add_right _ _) (by simp only; omega)
  obtain ⟨storage, pos, avail, hname⟩ := put_fields { t with fresh, reused } (tableSize - t.pos) h.name
  obtain ⟨storage', pos', avail', hvalue⟩ := put_fields { t with fresh, reused, storage, pos } avail h.value
  simp only [hname, hvalue] at hstrings hpos hentry hout
  simp only [Table.append, hreuse, hname, hvalue]
  generalize hnew : (⟨h.name.length, t.pos, h.value.length, pos⟩ : Entry) = new at hentry ⊢
  generalize hfilled : ({ t with
    pool := Function.update t.pool id new, fresh, reused, storage := storage', pos := pos' } : Table) = filled
  have hplaced : Placed filled.pool (splice row (a + bytes live) (h.name ++ h.value)) ids filled.deleted a live := by
    rw [← hfilled]
    refine hs.placed.congr (fun j hj hlt => ?_) fun i _ hi => splice_of_lt hi
    have hcount := hs.slots.count
    have hreused := hslots.reused
    simp only at hcount hreused hj hlt hid
    exact Function.update_of_ne (hid j (by omega) (by omega)) _ _
  have hslots' : Slots filled ids live.length := by
    rw [← hfilled]
    exact { hslots with }
  have hfields : filled.added = t.added ∧ filled.deleted = t.deleted ∧ filled.allocated = t.allocated ∧
      filled.reused = reused ∧ filled.fresh = fresh ∧ filled.storage = storage' ∧ filled.pos = pos' ∧
      filled.started = t.started ∧ filled.free = t.free ∧ filled.size = t.size ∧ filled.pool id = new := by
    rw [← hfilled]
    exact ⟨rfl, rfl, rfl, rfl, rfl, rfl, rfl, rfl, rfl, rfl, Function.update_self _ _ _⟩
  clear hfilled
  obtain ⟨hadded, hdeleted, hallocated, hreused, hfresh', hstorage, hpos', hstarted, hfree, hsize', hnew'⟩ := hfields
  obtain ⟨ids', hgrown, hless, hid', hplaced'⟩ := hslots'.room_grow id
    (by rw [hadded, hdeleted, hallocated, hreused]; exact hfull) (by rw [hadded, hdeleted, hallocated, hreused]; exact hroom)
    (by rw [hadded, hreused]; exact hid) hplaced
  obtain ⟨gstarted, gpool, gfresh, gstorage, gpos, gfree, gsize⟩ := grow_fields filled
  have hcount := hgrown.count
  have hbytes : bytes (live ++ [h]) = bytes live + h.bytes := by rw [bytes_append, bytes_cons]; rfl
  have hcosts : cost (live ++ [h]) = cost live + h.cost := by rw [cost_append, cost_cons]; rfl
  refine ⟨⟨splice row (a + bytes live) (h.name ++ h.value), Function.update ids' filled.grow.added id, a, ?_⟩,
    fun k hk => by rw [gstorage, hstorage]; exact hout k hk⟩
  exact {
    started := gstarted.trans (hstarted.trans hs.started)
    slots := by
      rw [List.length_append]
      exact hgrown.push hless hid' (by rw [gfresh, hfresh']; exact hfresh)
    placed := by
      show Placed filled.grow.pool _ _ filled.grow.deleted a (live ++ [h])
      rw [gpool]
      refine Placed.append (hplaced'.congr (fun j _ hlt => ?_) fun _ _ _ => rfl) ?_
      · rw [Function.update_of_ne (by omega)]
      · rw [hcount, Function.update_self, hnew']
        exact hentry
    strings := by
      show Window tableSize filled.grow.storage _ a (a + bytes (live ++ [h]))
      rw [gstorage, hstorage, hbytes, ← Nat.add_assoc]
      exact hstrings
    pos := by
      show filled.grow.pos ≤ tableSize ∧ filled.grow.pos % tableSize = (a + bytes (live ++ [h])) % tableSize
      rw [gpos, hpos', hbytes, ← Nat.add_assoc]
      exact hpos
    account := by
      show filled.grow.free + cost (live ++ [h]) + 0 = filled.grow.size
      rw [gfree, hfree, gsize, hsize', hcosts]
      omega
    size := gsize.trans (hsize'.trans hsize)
    bound := hbound }

theorem deleteWhile_storage (needed : ℤ) (rounds : ℕ) (t : Table) : (deleteWhile needed rounds t).storage = t.storage := by
  induction rounds generalizing t with
  | zero => rfl
  | succ rounds ih =>
      rw [deleteWhile]
      split_ifs
      · exact ih t.delete
      · rfl

theorem account_storage (t : Table) (size : ℕ) : (ngxHttpV2TableAccount t size).1.storage = t.storage := by
  rw [ngxHttpV2TableAccount]
  split_ifs
  · rfl
  · rfl
  · exact deleteWhile_storage _ _ t

theorem Shows.addHeader (hs : Shows t d row ids a 0) (h : Header) :
    (∃ row ids a, Shows (ngxHttpV2AddHeader t h) (d.add h) row ids a 0) ∧
    ∀ k ≥ tableSize, (ngxHttpV2AddHeader t h).storage k = t.storage k := by
  have hkeep := account_storage t (h.name.length + h.value.length)
  have hstart : t.start = t := if_pos hs.started
  have haccount := hs.account_for h
  rw [ngxHttpV2AddHeader, hstart, Dynamic.add]
  change if _ then (ngxHttpV2TableAccount t (h.name.length + h.value.length)).2 = false ∧ _ else _ at haccount
  by_cases hlarge : h.cost > d.size
  · rw [if_pos hlarge] at haccount ⊢
    obtain ⟨hfalse, a', hs'⟩ := haccount
    rw [hfalse]
    exact ⟨⟨row, ids, a', hs'⟩, fun k _ => congrFun hkeep k⟩
  · rw [if_neg hlarge] at haccount ⊢
    obtain ⟨htrue, a', hs'⟩ := haccount
    change (ngxHttpV2TableAccount t (h.name.length + h.value.length)).2 = true at htrue
    change Shows (ngxHttpV2TableAccount t (h.name.length + h.value.length)).1 _ _ _ _ _ at hs'
    rw [htrue, if_pos rfl, ← hkeep]
    exact hs'.append

/-! ### Runs -/

/-- The table shows the list, or there is no list yet. -/
def Refines (t : Table) : Option Dynamic → Prop
  | none => t.started = false ∧ t.added = 0 ∧ t.deleted = 0 ∧ t.reused = 0 ∧ t.free = t.size
  | some d => ∃ row ids a, Shows t d row ids a 0

/-- A table that is started is empty. -/
theorem Refines.start (hs : Refines t none) : Shows t.start ⟨[], tableSize⟩ t.storage t.entries 0 0 := by
  obtain ⟨hstarted, hadded, hdeleted, hreused, -⟩ := hs
  have hstart : t.start = { t with started := true, allocated := 64, size := tableSize, free := tableSize, pos := 0 } := by
    rw [Table.start, hstarted]
    rfl
  rw [hstart]
  have hnone : ∀ {k : ℕ}, ¬k < t.added := by
    intro k
    omega
  exact {
    started := rfl
    slots :=
      { window := fun k _ hk => absurd hk hnone
        distinct := fun j k _ _ hk => absurd hk hnone
        fresh := fun k _ hk => absurd hk hnone
        reused := by show t.reused ≤ t.deleted; omega
        count := by show t.deleted + 0 = t.added; omega
        room := by show t.added ≤ t.reused + 64; omega
        allocated := Nat.succ_pos 63 }
    placed := trivial
    strings := fun k _ hk => absurd hk (Nat.not_lt_zero k)
    pos := ⟨Nat.zero_le _, rfl⟩
    account := rfl
    size := rfl
    bound := le_refl _ }

theorem Refines.step {d : Option Dynamic} (hs : Refines t d) (e : Event) :
    Refines (step t e) (listStep d e) ∧ ∀ k ≥ tableSize, (Hpack.step t e).storage k = t.storage k := by
  cases e with
  | add header =>
      cases d with
      | none =>
          have hstart : t.start.start = t.start := if_pos hs.start.started
          have hstorage : t.start.storage = t.storage := by
            rw [Table.start]
            split_ifs <;> rfl
          have hadd := hs.start.addHeader header
          rw [ngxHttpV2AddHeader, hstart, hstorage] at hadd
          exact hadd
      | some d =>
          obtain ⟨row, ids, a, hs⟩ := hs
          exact hs.addHeader header
  | size size =>
      have hstorage : ∀ k ≥ tableSize, (Hpack.step t (.size size)).storage k = t.storage k := by
        intro k _
        rw [Hpack.step, ngxHttpV2TableSize]
        split_ifs
        · rfl
        · exact congrFun (deleteWhile_storage _ _ t) k
      refine ⟨?_, hstorage⟩
      rw [listStep]
      by_cases hlarge : size > tableSize
      · have hsame : Hpack.step t (.size size) = t := by
          rw [Hpack.step, ngxHttpV2TableSize, if_pos hlarge]
        rw [if_pos hlarge, hsame]
        exact hs
      · rw [if_neg hlarge]
        cases d with
        | none =>
            -- nothing can be given up
            obtain ⟨hstarted, hadded, hdeleted, hreused, hfree⟩ := hs
            have hnone : ∀ rounds, deleteWhile ((t.size : ℤ) - size) rounds t = t := by
              intro rounds
              cases rounds with
              | zero => rfl
              | succ rounds => exact if_neg (by omega)
            have hstep : Hpack.step t (.size size) =
                { t with size := size, free := ((t.free : ℤ) - (t.size - size)).toNat } := by
              rw [Hpack.step, ngxHttpV2TableSize, if_neg hlarge]
              simp only [hnone]
            rw [hstep]
            refine ⟨hstarted, hadded, hdeleted, hreused, ?_⟩
            show ((t.free : ℤ) - (t.size - size)).toNat = size
            omega
        | some d =>
            obtain ⟨row, ids, a, hs⟩ := hs
            obtain ⟨a', hs'⟩ := hs.resize (not_lt.mp hlarge)
            exact ⟨row, ids, a', hs'⟩

/-- A string of an entry is read back from the storage. -/
theorem Shows.copy {data w : ℕ} (hs : Shows t d row ids a 0) (len : ℕ) (hdata : data ≤ tableSize ∧ data % tableSize = w % tableSize)
    (hw : a ≤ w) (hlen : w + len ≤ a + bytes d.live) : t.copy data len = slice row w len := by
  have haccount := hs.account
  have hsize := hs.size
  have hbound := hs.bound
  have hcost := bytes_le_cost d.live
  exact hs.strings.read hdata.1 hdata.2 hw hlen (by omega)

theorem bytes_take_le {i : ℕ} (hi : i < l.length) : bytes (l.take i) + l[i].bytes ≤ bytes l := by
  have hsplit := bytes_append (l.take i) (l.drop i)
  rw [List.take_append_drop, List.drop_eq_getElem_cons hi, bytes_cons] at hsplit
  omega

/-- The entry that is `i` back from the newest one. -/
theorem Shows.lookup (hs : Shows t d row ids a 0) {i : ℕ} (hi : i < d.live.length) :
    let entry := t.pool (t.entries ((t.added - i - 1) % t.allocated))
    some ⟨t.copy entry.nameData entry.nameLen, t.copy entry.valueData entry.valueLen⟩ = d.live.reverse[i]? := by
  intro entry
  have hcount := hs.slots.count
  have hreused := hs.slots.reused
  have hn : d.live.length - 1 - i < d.live.length := by omega
  have hslot : t.entries ((t.added - i - 1) % t.allocated) = ids (t.deleted + (d.live.length - 1 - i)) := by
    rw [hs.slots.window (t.added - i - 1) (by omega) (by omega)]
    congr 1
    omega
  have hentry : EntryAt entry row (a + bytes (d.live.take (d.live.length - 1 - i))) d.live[d.live.length - 1 - i] := by
    have hget := hs.placed.get hn
    rw [← hslot] at hget
    exact hget
  have hwithin := bytes_take_le hn
  have hbytes : d.live[d.live.length - 1 - i].bytes =
    d.live[d.live.length - 1 - i].name.length + d.live[d.live.length - 1 - i].value.length := rfl
  have hname := hs.copy entry.nameLen hentry.nameData (Nat.le_add_right _ _) (by rw [hentry.nameLen]; omega)
  have hvalue := hs.copy entry.valueLen hentry.valueData (by omega) (by rw [hentry.valueLen]; omega)
  rw [hname, hvalue, hentry.nameLen, hentry.valueLen, hentry.name, hentry.value, List.getElem?_reverse hi,
    List.getElem?_eq_getElem hn]

/-- What has an index in the list is found at it in the table. -/
theorem Refines.indexed {d : Option Dynamic} (hs : Refines t d) (header : Header) (index : ℕ) :
    ngxHttpV2GetIndexedHeader t header index false = indexed d index ∧
    (ngxHttpV2GetIndexedHeader t header index true).map Header.name = (Hpack.indexed d index).map Header.name := by
  by_cases hzero : index = 0
  · subst hzero
    exact ⟨rfl, rfl⟩
  rw [ngxHttpV2GetIndexedHeader, ngxHttpV2GetIndexedHeader, Hpack.indexed, if_neg hzero, if_neg hzero, if_neg hzero]
  by_cases hstatic : index - 1 < ngxHttpV2StaticTableEntries
  · rw [if_pos hstatic, if_pos hstatic, List.getElem?_append_left hstatic]
    exact ⟨rfl, rfl⟩
  rw [if_neg hstatic, if_neg hstatic, List.getElem?_append_right (not_lt.mp hstatic)]
  have hlen : ngxHttpV2StaticTable.length = ngxHttpV2StaticTableEntries := rfl
  rw [hlen]
  generalize index - 1 - ngxHttpV2StaticTableEntries = i
  cases d with
  | none =>
      obtain ⟨-, hadded, hdeleted, -, -⟩ := hs
      have hnone : ¬i < t.added - t.deleted := by omega
      simp only [if_neg hnone]
      exact ⟨rfl, rfl⟩
  | some d =>
      obtain ⟨row, ids, a, hs⟩ := hs
      have hcount := hs.slots.count
      change _ = d.live.reverse[i]? ∧ _ = (d.live.reverse[i]?).map Header.name
      by_cases hi : i < d.live.length
      · have hlt : i < t.added - t.deleted := by omega
        have hlookup := hs.lookup hi
        simp only [if_pos hlt]
        rw [← hlookup]
        exact ⟨rfl, rfl⟩
      · have hlt : ¬i < t.added - t.deleted := by omega
        simp only [if_neg hlt]
        rw [List.getElem?_eq_none (by rw [List.length_reverse]; omega)]
        exact ⟨rfl, rfl⟩

/-- **The dynamic table is a list of headers.** Whatever headers are added and sizes are set on a connection, an index finds
in the table what has this index in the list, and nothing exactly where the list ends; of an index for the name only, the
name. Nothing is ever written outside of the storage. -/
theorem hpack_table (hfresh : t.Fresh) (es : List Event) (header : Header) (index : ℕ) :
    let s := run step t es
    let d := run listStep none es
    ngxHttpV2GetIndexedHeader s header index false = indexed d index ∧
    (ngxHttpV2GetIndexedHeader s header index true).map Header.name = (indexed d index).map Header.name ∧
    ∀ k ≥ tableSize, s.storage k = t.storage k := by
  have hrun : ∀ (es : List Event) {t d}, Refines t d →
      Refines (run step t es) (run listStep d es) ∧ ∀ k ≥ tableSize, (run step t es).storage k = t.storage k := by
    intro es
    induction es with
    | nil => exact fun hs => ⟨hs, fun _ _ => rfl⟩
    | cons e es ih =>
        intro t d hs
        obtain ⟨hstep, hstorage⟩ := hs.step e
        obtain ⟨htail, hstorage'⟩ := ih hstep
        exact ⟨htail, fun k hk => (hstorage' k hk).trans (hstorage k hk)⟩
  obtain ⟨hstarted, hadded, hdeleted, hreused, -, hsize, hfree⟩ := hfresh
  obtain ⟨hs, hstorage⟩ := hrun es (d := none) ⟨hstarted, hadded, hdeleted, hreused, hfree.trans hsize.symm⟩
  exact ⟨(hs.indexed header index).1, (hs.indexed header index).2, hstorage⟩

/-- A size that is set before the first header is forgotten: the header has an index. -/
theorem hpack_table_forgets :
    ngxHttpV2GetIndexedHeader
      (run step ⟨false, fun _ => 0, fun _ => ⟨0, 0, 0, 0⟩, 0, 0, 0, 0, 0, 0, 0, fun _ => 0, 0⟩
        [.size 0, .add ⟨[97], [98]⟩]) ⟨[], []⟩ 62 false = some ⟨[97], [98]⟩ :=
  (hpack_table ⟨rfl, rfl, rfl, rfl, rfl, rfl, rfl⟩ _ _ _).1.trans (by decide +kernel)

end NginxDtls.Hpack
