import NginxDtls.GeoConf

/-! The bytes of a binary base. What is written one behind the other is found at its positions, so that the reading of a base
that has been written sums up the same CRC-32, and its pointers lead to the values and the ranges they were made of. -/

namespace NginxDtls.Geo

open Zipper RbTree

/-! ### Numbers -/

@[simp]
theorem le_length (n v : ℕ) : (le n v).length = n := by
  induction n generalizing v with
  | zero => rfl
  | succ n ih => rw [le, List.length_cons, ih]

theorem ofLe_le (n v : ℕ) : ofLe (le n v) = v % 256 ^ n := by
  induction n generalizing v with
  | zero => exact (Nat.mod_one v).symm
  | succ n ih =>
      have hbyte : (UInt8.ofNat (v % 256)).toNat = v % 256 := UInt8.toNat_ofNat_of_lt' (Nat.mod_lt v (by decide))
      rw [le, ofLe, ih, hbyte, Nat.pow_succ', Nat.mod_mul]

theorem ngxAlign_le (d : ℕ) : d ≤ ngxAlign d 8 := by
  unfold ngxAlign
  omega

/-! ### Positions -/

/-- These bytes stand at a position of the base. -/
def At (base : List UInt8) (pos : ℕ) (bytes : List UInt8) : Prop := bytesAt base pos bytes.length = bytes

section At

variable {base a b c : List UInt8} {pos : ℕ}

theorem bytesAt_add (base : List UInt8) (pos m n : ℕ) :
    bytesAt base pos (m + n) = bytesAt base pos m ++ bytesAt base (pos + m) n := by
  unfold bytesAt
  rw [List.take_add, List.drop_drop]

theorem at_append : At base pos (a ++ b) ↔ At base pos a ∧ At base (pos + a.length) b := by
  unfold At
  rw [List.length_append, bytesAt_add]
  constructor
  · intro h
    obtain ⟨h₁, h₂⟩ := List.append_inj' h (by
      have hlength := congrArg List.length h
      have hle : (bytesAt base pos a.length).length ≤ a.length := List.length_take_le _ _
      have hle' : (bytesAt base (pos + a.length) b.length).length ≤ b.length := List.length_take_le _ _
      rw [List.length_append, List.length_append] at hlength
      omega)
    exact ⟨h₁, h₂⟩
  · rintro ⟨h₁, h₂⟩
    rw [h₁, h₂]

theorem at_middle (a b c : List UInt8) : At (a ++ b ++ c) a.length b := by
  unfold At bytesAt
  rw [List.append_assoc, List.drop_left, List.take_left]

/-- What stands in the base ends in it. -/
theorem At.end_le (h : At base pos a) (ha : a ≠ []) : pos + a.length ≤ base.length := by
  have hlength := congrArg List.length h
  have hpos : 0 < a.length := List.length_pos_iff.mpr ha
  rw [bytesAt, List.length_take, List.length_drop] at hlength
  omega

theorem At.leAt {n v : ℕ} (h : At base pos (le n v)) : leAt base pos n = v % 256 ^ n := by
  unfold At at h
  rw [le_length] at h
  rw [Geo.leAt, h, ofLe_le]

theorem crc32Update_append (crc : UInt32) (a b : List UInt8) :
    ngxCrc32Update crc (a ++ b) = ngxCrc32Update (ngxCrc32Update crc a) b := List.foldl_append

end At

/-! ### Values -/

section Values

variable {memory : ValueMemory} {base : List UInt8}

/-- What a value takes in the base. -/
def valueSize (text : List UInt8) : ℕ := ngxAlign (16 + text.length) 8

theorem valueBytes_length (memory : ValueMemory) (p : ℕ) (text : List UInt8) :
    (valueBytes memory p text).length = valueSize text := by
  have hle := ngxAlign_le (16 + text.length)
  simp only [valueBytes, List.length_append, le_length, List.length_replicate, valueSize]
  omega

/-- Values one behind the other. -/
def valuesBytes (memory : ValueMemory) : ℕ → List (List UInt8) → List UInt8
  | _, [] => []
  | p, text :: texts => valueBytes memory p text ++ valuesBytes memory (p + valueSize text) texts

theorem valuesBytes_length (memory : ValueMemory) (p : ℕ) (texts : List (List UInt8)) :
    (valuesBytes memory p texts).length = (texts.map valueSize).sum := by
  induction texts generalizing p with
  | nil => rfl
  | cons text texts ih =>
      rw [valuesBytes, List.length_append, valueBytes_length, ih, List.map_cons, List.sum_cons]

theorem valuesBytes_append (memory : ValueMemory) (p : ℕ) (as bs : List (List UInt8)) :
    valuesBytes memory p (as ++ bs) =
      valuesBytes memory p as ++ valuesBytes memory (p + (valuesBytes memory p as).length) bs := by
  induction as generalizing p with
  | nil => rfl
  | cons a as ih =>
      rw [List.cons_append, valuesBytes, ih, valuesBytes, List.append_assoc, List.length_append, valueBytes_length,
        Nat.add_assoc]

/-- The parts of a value. -/
theorem at_valueBytes {pos : ℕ} {text : List UInt8} (h : At base pos (valueBytes memory pos text))
    (hbase : base.length < 2 ^ 63) (hshort : text.length < 2 ^ 28) :
    leAt base pos 4 = text.length + 2 ^ 28 + (if (memory text).1 then 2 ^ 31 else 0) ∧ leAt base (pos + 8) 8 = pos + 16 ∧
      At base (pos + 16) text := by
  have hend := h.end_le (by
    intro hnil
    have hlength := valueBytes_length memory pos text
    rw [hnil] at hlength
    have hle := ngxAlign_le (16 + text.length)
    unfold valueSize at hlength
    simp only [List.length_nil] at hlength
    omega)
  have hsize := ngxAlign_le (16 + text.length)
  rw [valueBytes_length, valueSize] at hend
  unfold valueBytes at h
  obtain ⟨h, -⟩ := at_append.mp h
  obtain ⟨h, htext⟩ := at_append.mp h
  obtain ⟨h, hdata⟩ := at_append.mp h
  obtain ⟨hbits, -⟩ := at_append.mp h
  simp only [List.length_append, le_length] at hdata htext
  refine ⟨?_, ?_, htext⟩
  · rw [hbits.leAt, Nat.mod_eq_of_lt hshort, Nat.mod_eq_of_lt]
    split <;> omega
  · rw [hdata.leAt, Nat.mod_eq_of_lt]
    omega

theorem value_length {text : List UInt8} (hshort : text.length < 2 ^ 28) (high : Bool) :
    (text.length + 2 ^ 28 + if high then 2 ^ 31 else 0) % 2 ^ 28 = text.length := by
  split <;> omega

/-- A value that was written is read back. -/
theorem baseValue_eq {pos : ℕ} {text : List UInt8} (h : At base pos (valueBytes memory pos text))
    (hbase : base.length < 2 ^ 63) (hshort : text.length < 2 ^ 28) : baseValue base pos = textValue text := by
  obtain ⟨hbits, hdata, htext⟩ := at_valueBytes h hbase hshort
  unfold baseValue textValue
  rw [hbits, hdata, value_length hshort, htext]
  congr 1
  · rw [Nat.testBit_eq_decide_div_mod_eq]
    split <;> exact decide_eq_true (by omega)
  · rw [Nat.testBit_eq_decide_div_mod_eq]
    split <;> exact decide_eq_false (by omega)
  · rw [Nat.testBit_eq_decide_div_mod_eq]
    split <;> exact decide_eq_false (by omega)

theorem scanValues_eq {fuel pos : ℕ} {texts : List (List UInt8)}
    (h : At base pos (valuesBytes memory pos texts ++ List.replicate 16 0)) (hbase : base.length < 2 ^ 63)
    (hshort : ∀ text ∈ texts, text.length < 2 ^ 28) (hfuel : texts.length < fuel) (crc : UInt32) :
    scanValues base fuel pos crc = some (pos + (valuesBytes memory pos texts).length + 16,
      ngxCrc32Update crc (valuesBytes memory pos texts ++ List.replicate 16 0)) := by
  induction texts generalizing fuel pos crc with
  | nil =>
      obtain ⟨fuel, rfl⟩ := Nat.exists_eq_succ_of_ne_zero (Nat.ne_of_gt hfuel)
      have hsplit : (List.replicate 16 0 : List UInt8) = le 8 0 ++ le 8 0 := rfl
      have hzero : leAt base (pos + 8) 8 = 0 := by
        unfold valuesBytes at h
        rw [List.nil_append, hsplit] at h
        exact (at_append.mp h).2.leAt
      rw [scanValues, if_pos hzero]
      exact congrArg (fun bytes => some (pos + 16, ngxCrc32Update crc bytes)) h
  | cons text texts ih =>
      obtain ⟨fuel, rfl⟩ := Nat.exists_eq_succ_of_ne_zero (Nat.ne_of_gt (Nat.lt_of_le_of_lt (Nat.zero_le _) hfuel))
      rw [valuesBytes, List.append_assoc] at h
      obtain ⟨hvalue, hrest⟩ := at_append.mp h
      have hlength := hshort text List.mem_cons_self
      obtain ⟨hbits, hdata, -⟩ := at_valueBytes hvalue hbase hlength
      rw [valueBytes_length] at hrest
      have hbytes : bytesAt base pos (valueSize text) = valueBytes memory pos text := by
        rw [← valueBytes_length memory pos text]
        exact hvalue
      rw [scanValues, hdata, if_neg (by omega), hbits, value_length hlength]
      show scanValues base fuel (pos + valueSize text) (ngxCrc32Update crc (bytesAt base pos (valueSize text))) = _
      rw [hbytes, ih hrest (fun t ht => hshort t (List.mem_cons_of_mem _ ht)) (Nat.lt_of_succ_lt_succ hfuel),
        valuesBytes, List.append_assoc, crc32Update_append crc (valueBytes memory pos text), List.length_append,
        valueBytes_length, Nat.add_assoc pos]

end Values

/-! ### Pointers and ranges -/

theorem scanTable_eq (base : List UInt8) (pos : ℕ) (crc : UInt32) :
    scanTable base pos crc = ngxCrc32Update crc (bytesAt base pos (0x10000 * 8)) := by
  have hpre : ∀ n, (List.range n).foldl (fun crc i => ngxCrc32Update crc (bytesAt base (pos + 8 * i) 8)) crc =
      ngxCrc32Update crc (bytesAt base pos (n * 8)) := by
    intro n
    induction n with
    | zero =>
        rw [Nat.zero_mul, bytesAt, List.take_zero]
        rfl
    | succ n ih =>
        rw [List.range_succ, List.foldl_append, ih, Nat.succ_mul, bytesAt_add, crc32Update_append, Nat.mul_comm n 8]
        rfl
  exact hpre _

section Lists

variable {base : List UInt8} {offset : List UInt8 → ℕ}

/-- A range, with the offset of its value. -/
def rangeBytes (offset : List UInt8 → ℕ) (r : Range (List UInt8)) : List UInt8 :=
  le 8 (offset r.value) ++ le 2 r.start ++ le 2 r.stop ++ le 4 0

theorem rangeBytes_length (offset : List UInt8 → ℕ) (r : Range (List UInt8)) : (rangeBytes offset r).length = 16 := by
  simp only [rangeBytes, List.length_append, le_length]

/-- The ranges of a bucket with the mark behind them. -/
def listBytes (offset : List UInt8 → ℕ) (ranges : List (Range (List UInt8))) : List UInt8 :=
  ranges.flatMap (rangeBytes offset) ++ le 8 0

theorem listBytes_cons (offset : List UInt8 → ℕ) (r : Range (List UInt8)) (ranges : List (Range (List UInt8))) :
    listBytes offset (r :: ranges) = rangeBytes offset r ++ listBytes offset ranges := by
  rw [listBytes, List.flatMap_cons, List.append_assoc, listBytes]

theorem listBytes_length (offset : List UInt8 → ℕ) (ranges : List (Range (List UInt8))) :
    (listBytes offset ranges).length = ranges.length * 16 + 8 := by
  induction ranges with
  | nil => rfl
  | cons r ranges ih =>
      rw [listBytes_cons, List.length_append, rangeBytes_length, ih, List.length_cons]
      omega

/-- Offsets of values are no null pointers. -/
def Offsets (offset : List UInt8 → ℕ) (ranges : List (Range (List UInt8))) : Prop :=
  ∀ r ∈ ranges, 0 < offset r.value ∧ offset r.value < 2 ^ 64

theorem at_rangeBytes {pos : ℕ} {r : Range (List UInt8)} (h : At base pos (rangeBytes offset r))
    (hoffset : offset r.value < 2 ^ 64) (hr : r.start < 2 ^ 16 ∧ r.stop < 2 ^ 16) :
    leAt base pos 8 = offset r.value ∧ leAt base (pos + 8) 2 = r.start ∧ leAt base (pos + 10) 2 = r.stop := by
  unfold rangeBytes at h
  obtain ⟨h, -⟩ := at_append.mp h
  obtain ⟨h, hstop⟩ := at_append.mp h
  obtain ⟨hvalue, hstart⟩ := at_append.mp h
  simp only [List.length_append, le_length] at hstop hstart
  refine ⟨?_, ?_, ?_⟩
  · exact hvalue.leAt.trans (Nat.mod_eq_of_lt hoffset)
  · exact hstart.leAt.trans (Nat.mod_eq_of_lt hr.1)
  · exact hstop.leAt.trans (Nat.mod_eq_of_lt hr.2)

theorem at_pointer {pos : ℕ} {r : Range (List UInt8)} (h : At base pos (rangeBytes offset r))
    (hoffset : offset r.value < 2 ^ 64) : leAt base pos 8 = offset r.value := by
  unfold rangeBytes at h
  obtain ⟨h, -⟩ := at_append.mp h
  obtain ⟨h, -⟩ := at_append.mp h
  exact (at_append.mp h).1.leAt.trans (Nat.mod_eq_of_lt hoffset)

theorem scanList_eq {fuel pos : ℕ} {ranges : List (Range (List UInt8))} (h : At base pos (listBytes offset ranges))
    (hoffset : Offsets offset ranges) (hfuel : ranges.length < fuel) (crc : UInt32) :
    scanList base fuel pos crc = some (pos + (listBytes offset ranges).length,
      ngxCrc32Update crc (listBytes offset ranges)) := by
  induction ranges generalizing fuel pos crc with
  | nil =>
      obtain ⟨fuel, rfl⟩ := Nat.exists_eq_succ_of_ne_zero (Nat.ne_of_gt hfuel)
      have hmark : At base pos (le 8 0) := h
      have hzero : leAt base pos 8 = 0 := hmark.leAt
      rw [scanList, if_pos hzero]
      exact congrArg (fun bytes => some (pos + 8, ngxCrc32Update crc bytes)) h
  | cons r ranges ih =>
      obtain ⟨fuel, rfl⟩ := Nat.exists_eq_succ_of_ne_zero (Nat.ne_of_gt (Nat.lt_of_le_of_lt (Nat.zero_le _) hfuel))
      rw [listBytes_cons] at h
      obtain ⟨hrange, hrest⟩ := at_append.mp h
      obtain ⟨hpos, hlt⟩ := hoffset r List.mem_cons_self
      have hbytes : bytesAt base pos 16 = rangeBytes offset r := by
        rw [← rangeBytes_length offset r]
        exact hrange
      rw [rangeBytes_length] at hrest
      rw [scanList, at_pointer hrange hlt, if_neg (by omega), hbytes,
        ih hrest (fun r' hr' => hoffset r' (List.mem_cons_of_mem _ hr')) (Nat.lt_of_succ_lt_succ hfuel), listBytes_cons,
        crc32Update_append, List.length_append, rangeBytes_length, Nat.add_assoc]

theorem scanLists_eq {fuel pos : ℕ} {lists : List (List (Range (List UInt8)))}
    (h : At base pos (lists.flatMap (listBytes offset)))
    (hend : pos + (lists.flatMap (listBytes offset)).length = base.length)
    (hoffset : ∀ ranges ∈ lists, Offsets offset ranges) (hfuel : lists.length < fuel) (crc : UInt32) :
    scanLists base fuel pos crc = some (ngxCrc32Update crc (lists.flatMap (listBytes offset))) := by
  induction lists generalizing fuel pos crc with
  | nil =>
      obtain ⟨fuel, rfl⟩ := Nat.exists_eq_succ_of_ne_zero (Nat.ne_of_gt hfuel)
      have hpos : pos = base.length := hend
      rw [scanLists, if_neg (by omega)]
      rfl
  | cons ranges lists ih =>
      obtain ⟨fuel, rfl⟩ := Nat.exists_eq_succ_of_ne_zero (Nat.ne_of_gt (Nat.lt_of_le_of_lt (Nat.zero_le _) hfuel))
      rw [List.flatMap_cons] at h hend
      rw [List.length_append] at hend
      have hlength := listBytes_length offset ranges
      obtain ⟨hlist, hrest⟩ := at_append.mp h
      rw [scanLists, if_pos (by omega),
        scanList_eq hlist (hoffset ranges List.mem_cons_self) (by omega), Option.bind_some,
        ih hrest (by omega) (fun r hr => hoffset r (List.mem_cons_of_mem _ hr)) (Nat.lt_of_succ_lt_succ hfuel),
        List.flatMap_cons, crc32Update_append]

/-- The ranges that were written are read back, with their values. -/
theorem baseList_eq {fuel pos : ℕ} {r : Range (List UInt8)} {ranges : List (Range (List UInt8))}
    (h : At base pos (listBytes offset (r :: ranges))) (hoffset : Offsets offset (r :: ranges))
    (hwithin : ∀ r' ∈ r :: ranges, r'.start < 2 ^ 16 ∧ r'.stop < 2 ^ 16) (hfuel : ranges.length < fuel) :
    baseList base fuel pos =
      (r :: ranges).map fun r => ⟨baseValue base (offset r.value), r.start, r.stop⟩ := by
  induction ranges generalizing fuel pos r with
  | nil =>
      obtain ⟨fuel, rfl⟩ := Nat.exists_eq_succ_of_ne_zero (Nat.ne_of_gt hfuel)
      rw [listBytes_cons] at h
      obtain ⟨hrange, hmark⟩ := at_append.mp h
      obtain ⟨hvalue, hstart, hstop⟩ := at_rangeBytes hrange (hoffset r List.mem_cons_self).2 (hwithin r List.mem_cons_self)
      rw [rangeBytes_length] at hmark
      have hzero : leAt base (pos + 16) 8 = 0 := At.leAt (v := 0) hmark
      rw [baseList, hvalue, hstart, hstop, if_pos hzero]
      rfl
  | cons r' ranges ih =>
      obtain ⟨fuel, rfl⟩ := Nat.exists_eq_succ_of_ne_zero (Nat.ne_of_gt (Nat.lt_of_le_of_lt (Nat.zero_le _) hfuel))
      rw [listBytes_cons] at h
      obtain ⟨hrange, hrest⟩ := at_append.mp h
      obtain ⟨hvalue, hstart, hstop⟩ := at_rangeBytes hrange (hoffset r List.mem_cons_self).2 (hwithin r List.mem_cons_self)
      rw [rangeBytes_length] at hrest
      have hnext := hoffset r' (List.mem_cons_of_mem _ List.mem_cons_self)
      have hpointer : leAt base (pos + 16) 8 = offset r'.value := by
        have hcons := hrest
        rw [listBytes_cons] at hcons
        exact at_pointer (at_append.mp hcons).1 hnext.2
      rw [baseList, hvalue, hstart, hstop, if_neg (by omega),
        ih hrest (fun s hs => hoffset s (List.mem_cons_of_mem _ hs)) (fun s hs => hwithin s (List.mem_cons_of_mem _ hs))
          (Nat.lt_of_succ_lt_succ hfuel)]
      rfl

end Lists

/-! ### Writing -/

section Write

variable {d : StrTree} {T : BTree ℕ} {offset : ℕ → ℕ} {memory : ValueMemory} {base : List UInt8}

/-- The offset of a text, that of its node. -/
def textOffset (d : StrTree) (offset : ℕ → ℕ) (text : List UInt8) : ℕ :=
  match d.nodes.find? fun n => d.str n = text with
  | some n => offset n
  | none => 0

theorem textOffset_eq (hd : d.Inv T) (offset : ℕ → ℕ) {n : ℕ} (hn : n ∈ d.nodes) :
    textOffset d offset (d.str n) = offset n := by
  unfold textOffset
  cases hfind : d.nodes.find? fun m => d.str m = d.str n with
  | none => exact absurd (decide_eq_true rfl) (List.find?_eq_none.mp hfind n hn)
  | some m =>
      have hm := List.mem_of_find?_eq_some hfind
      have hstr : d.str m = d.str n := by simpa using List.find?_some hfind
      rw [hd.str_inj hm hn hstr]

/-- The text is that of a node. -/
def Known (d : StrTree) (text : List UInt8) : Prop := ∃ n ∈ d.nodes, d.str n = text

theorem writeRange_eq (hd : d.Inv T) (offset : ℕ → ℕ) {r : Range (List UInt8)} (hr : Known d r.value) :
    writeRange d offset r = some (rangeBytes (textOffset d offset) r) := by
  obtain ⟨n, hn, hstr⟩ := hr
  rw [writeRange, ← hstr, hd.lookup_found hn, Option.bind_some, Option.map_some, rangeBytes, ← hstr,
    textOffset_eq hd offset hn]

theorem writeList_eq (hd : d.Inv T) (offset : ℕ → ℕ) {ranges : List (Range (List UInt8))}
    (hknown : ∀ r ∈ ranges, Known d r.value) :
    writeList d offset ranges = some (listBytes (textOffset d offset) ranges) := by
  induction ranges with
  | nil => rfl
  | cons r ranges ih =>
      rw [writeList, writeRange_eq hd offset (hknown r List.mem_cons_self), Option.bind_some,
        ih fun r' hr' => hknown r' (List.mem_cons_of_mem _ hr'), Option.map_some, listBytes_cons]

/-- The pointers to the buckets, whose ranges stand from `p` on. -/
def pointers (offset : List UInt8 → ℕ) (low : Low (List UInt8)) : ℕ → List ℕ → List ℕ
  | _, [] => []
  | p, i :: is =>
    match low i with
    | none => 0 :: pointers offset low p is
    | some ranges => p :: pointers offset low (p + (listBytes offset ranges).length) is

theorem pointers_length (offset : List UInt8 → ℕ) (low : Low (List UInt8)) (p : ℕ) (is : List ℕ) :
    (pointers offset low p is).length = is.length := by
  induction is generalizing p with
  | nil => rfl
  | cons i is ih =>
      rw [pointers]
      split
      · rw [List.length_cons, ih, List.length_cons]
      · rw [List.length_cons, ih, List.length_cons]

theorem writeLists_eq (hd : d.Inv T) (offset : ℕ → ℕ) {low : Low (List UInt8)}
    (hknown : ∀ i ranges, low i = some ranges → ∀ r ∈ ranges, Known d r.value) (p : ℕ) (is : List ℕ) :
    writeLists d offset low p is = some (pointers (textOffset d offset) low p is,
      (is.filterMap low).flatMap (listBytes (textOffset d offset))) := by
  induction is generalizing p with
  | nil => rfl
  | cons i is ih =>
      rw [writeLists, pointers]
      cases hlow : low i with
      | none =>
          dsimp only
          rw [ih, Option.map_some, List.filterMap_cons_none hlow]
      | some ranges =>
          dsimp only
          rw [writeList_eq hd offset (hknown i ranges hlow), Option.bind_some, ih, Option.map_some,
            List.filterMap_cons_some hlow, List.flatMap_cons]

/-- A pointer leads to the ranges of its bucket. -/
theorem at_pointers {o : List UInt8 → ℕ} {low : Low (List UInt8)} {p : ℕ} {is : List ℕ}
    (h : At base p ((is.filterMap low).flatMap (listBytes o))) {k i : ℕ} (hk : is[k]? = some i) :
    (low i = none ∧ (pointers o low p is)[k]? = some 0) ∨
      ∃ ranges pos, low i = some ranges ∧ p ≤ pos ∧ (pointers o low p is)[k]? = some pos ∧ At base pos (listBytes o ranges) := by
  induction is generalizing p k with
  | nil => cases hk
  | cons j is ih =>
      rw [pointers]
      cases hlow : low j with
      | none =>
          rw [List.filterMap_cons_none hlow] at h
          cases k with
          | zero =>
              obtain rfl := Option.some.inj hk
              exact .inl ⟨hlow, rfl⟩
          | succ k => exact ih h hk
      | some ranges =>
          rw [List.filterMap_cons_some hlow, List.flatMap_cons] at h
          obtain ⟨hlist, hrest⟩ := at_append.mp h
          cases k with
          | zero =>
              obtain rfl := Option.some.inj hk
              exact .inr ⟨ranges, p, hlow, Nat.le_refl p, rfl, hlist⟩
          | succ k =>
              rcases ih hrest hk with hnone | ⟨ranges', pos, hlow', hle, hpointer, hat⟩
              · exact .inl hnone
              · exact .inr ⟨ranges', pos, hlow', by omega, hpointer, hat⟩

theorem at_table {pos : ℕ} {ps : List ℕ} (h : At base pos (ps.flatMap (le 8))) {k v : ℕ} (hk : ps[k]? = some v) :
    At base (pos + 8 * k) (le 8 v) := by
  induction ps generalizing pos k with
  | nil => cases hk
  | cons p ps ih =>
      rw [List.flatMap_cons] at h
      obtain ⟨hfirst, hrest⟩ := at_append.mp h
      rw [le_length] at hrest
      cases k with
      | zero =>
          obtain rfl := Option.some.inj hk
          exact hfirst
      | succ k =>
          have hat := ih hrest hk
          rwa [show pos + 8 + 8 * k = pos + 8 * (k + 1) by omega] at hat

theorem table_length (ps : List ℕ) : (ps.flatMap (le 8)).length = ps.length * 8 := by
  induction ps with
  | nil => rfl
  | cons p ps ih =>
      rw [List.flatMap_cons, List.length_append, le_length, ih, List.length_cons]
      omega

/-- The values are written one behind the other, each at the offset of its node. -/
theorem copyValues_eq (memory : ValueMemory) {path : List (Frame ℕ)} (h : d.rbtree.Rep T path) {fuel : ℕ}
    (hfuel : T.toList.length < fuel) (file : List UInt8) (offset : ℕ → ℕ) :
    ∃ (ns : List ℕ) (offset' : ℕ → ℕ), ns.Perm T.toList ∧
      ngxStreamGeoCopyValues memory d fuel (file, offset) (ptr d.rbtree.sentinel T) =
        some (file ++ valuesBytes memory file.length (ns.map d.str), offset') ∧
      (∀ n, n ∉ T.toList → offset' n = offset n) ∧
      ∀ base, At base file.length (valuesBytes memory file.length (ns.map d.str)) → ∀ n ∈ T.toList,
        file.length ≤ offset' n ∧ At base (offset' n) (valueBytes memory (offset' n) (d.str n)) := by
  induction fuel generalizing T path file offset with
  | zero => exact absurd hfuel (Nat.not_lt_zero _)
  | succ fuel ih =>
      cases T with
      | leaf =>
          refine ⟨[], offset, List.Perm.nil, ?_, fun _ _ => rfl, fun _ _ n hn => absurd hn List.not_mem_nil⟩
          rw [ngxStreamGeoCopyValues]
          show (if d.rbtree.sentinel = d.rbtree.sentinel then _ else _) = _
          rw [if_pos rfl, List.map_nil, valuesBytes, List.append_nil]
      | node red l x r =>
          have hx : x ≠ d.rbtree.sentinel := Rep.ne_sentinel (d := .left) h
          have hl : d.rbtree.Rep l (⟨.left, red, x, r⟩ :: path) := rep_cons.mpr h
          have hr : d.rbtree.Rep r (⟨.right, red, x, l⟩ :: path) := rep_cons.mpr h
          have hleft : d.rbtree.child .left x = ptr d.rbtree.sentinel l := h.links.2.1
          have hright : d.rbtree.child .right x = ptr d.rbtree.sentinel r := h.links.2.2.1
          have hnodup : (BTree.node red l x r).toList.Nodup := (List.nodup_append.mp h.nodup).1
          simp only [BTree.toList, List.length_append, List.length_cons] at hfuel
          rw [BTree.toList, List.nodup_append, List.nodup_cons] at hnodup
          obtain ⟨-, ⟨hxr, -⟩, hdisjoint⟩ := hnodup
          have hxl : x ∉ l.toList := fun hmem => hdisjoint x hmem x List.mem_cons_self rfl
          have hlr : ∀ n ∈ l.toList, n ∉ r.toList := fun n hn hn' => hdisjoint n hn n (List.mem_cons_of_mem _ hn') rfl
          obtain ⟨ns₁, offset₁, hperm₁, hcopy₁, hsame₁, hat₁⟩ := ih hl (by omega)
            (file ++ valueBytes memory file.length (d.str x)) (Function.update offset x file.length)
          obtain ⟨ns₂, offset₂, hperm₂, hcopy₂, hsame₂, hat₂⟩ := ih hr (by omega)
            (file ++ valueBytes memory file.length (d.str x) ++
              valuesBytes memory (file ++ valueBytes memory file.length (d.str x)).length (ns₁.map d.str)) offset₁
          have hfile : file ++ valuesBytes memory file.length ((x :: ns₁ ++ ns₂).map d.str) =
              file ++ valueBytes memory file.length (d.str x) ++
                valuesBytes memory (file ++ valueBytes memory file.length (d.str x)).length (ns₁.map d.str) ++
                valuesBytes memory (file ++ valueBytes memory file.length (d.str x) ++
                  valuesBytes memory (file ++ valueBytes memory file.length (d.str x)).length (ns₁.map d.str)).length
                  (ns₂.map d.str) := by
            rw [List.cons_append, List.map_cons, List.map_append, valuesBytes, valuesBytes_append]
            simp only [List.length_append, List.append_assoc, valueBytes_length, Nat.add_assoc]
          refine ⟨x :: ns₁ ++ ns₂, offset₂, ?_, ?_, ?_, ?_⟩
          · rw [BTree.toList, List.cons_append]
            exact ((hperm₁.append hperm₂).cons x).trans List.perm_middle.symm
          · have hptr : ptr d.rbtree.sentinel (BTree.node red l x r) = x := rfl
            rw [hfile, hptr, ngxStreamGeoCopyValues, if_neg hx, hleft, hcopy₁, Option.bind_some, hright, hcopy₂]
          · intro n hn
            rw [BTree.toList, List.mem_append, List.mem_cons, not_or, not_or] at hn
            rw [hsame₂ n hn.2.2, hsame₁ n hn.1, Function.update_of_ne hn.2.1]
          · intro base hbase n hn
            have hsplit : valuesBytes memory file.length ((x :: ns₁ ++ ns₂).map d.str) =
                valueBytes memory file.length (d.str x) ++
                  (valuesBytes memory (file ++ valueBytes memory file.length (d.str x)).length (ns₁.map d.str) ++
                  valuesBytes memory (file ++ valueBytes memory file.length (d.str x) ++
                    valuesBytes memory (file ++ valueBytes memory file.length (d.str x)).length (ns₁.map d.str)).length
                    (ns₂.map d.str)) := by
              refine List.append_cancel_left (?_ : file ++ _ = file ++ _)
              rw [hfile]
              simp only [List.append_assoc]
            rw [hsplit] at hbase
            obtain ⟨hfirst, hrest⟩ := at_append.mp hbase
            rw [← List.length_append] at hrest
            obtain ⟨hmiddle, hlast⟩ := at_append.mp hrest
            rw [← List.length_append] at hlast
            rw [BTree.toList, List.mem_append, List.mem_cons] at hn
            rcases hn with hn | rfl | hn
            · obtain ⟨hle, hat⟩ := hat₁ base hmiddle n hn
              rw [List.length_append] at hle
              rw [hsame₂ n (hlr n hn)]
              exact ⟨by omega, hat⟩
            · rw [hsame₂ n hxr, hsame₁ n hxl, Function.update_self]
              exact ⟨Nat.le_refl _, hfirst⟩
            · obtain ⟨hle, hat⟩ := hat₂ base hlast n hn
              rw [List.length_append, List.length_append] at hle
              exact ⟨by omega, hat⟩

/-! ### The whole base -/

theorem length_le_sum {α : Type} {f : α → ℕ} {l : List α} (h : ∀ a ∈ l, 0 < f a) : l.length ≤ (l.map f).sum := by
  induction l with
  | nil => exact Nat.le_refl _
  | cons a l ih =>
      have ha := h a List.mem_cons_self
      have hl := ih fun b hb => h b (List.mem_cons_of_mem _ hb)
      rw [List.length_cons, List.map_cons, List.sum_cons]
      omega

theorem valueSize_pos (text : List UInt8) : 0 < valueSize text := by
  have hle := ngxAlign_le (16 + text.length)
  unfold valueSize
  omega

theorem lists_length (o : List UInt8 → ℕ) (low : Low (List UInt8)) (is : List ℕ) :
    ((is.filterMap low).flatMap (listBytes o)).length = (is.map (listSize low)).sum := by
  induction is with
  | nil => rfl
  | cons i is ih =>
      rw [List.map_cons, List.sum_cons, listSize]
      cases hlow : low i with
      | none =>
          rw [List.filterMap_cons_none hlow, ih]
          exact (Nat.zero_add _).symm
      | some ranges => rw [List.filterMap_cons_some hlow, List.flatMap_cons, List.length_append, listBytes_length, ih]

/-- What is needed of a table to write it. -/
structure Writable (d : StrTree) (low : Low (List UInt8)) : Prop where
  known : ∀ i ranges, low i = some ranges → ∀ r ∈ ranges, Known d r.value
  within : ∀ i ranges, low i = some ranges → ∀ r ∈ ranges, r.start < 2 ^ 16 ∧ r.stop < 2 ^ 16
  filled : ∀ i ranges, low i = some ranges → ranges ≠ []

/-- Where the pointers and the ranges stand. -/
def tablePos (texts : List (List UInt8)) : ℕ := 16 + (texts.map valueSize).sum + 16

def listsPos (texts : List (List UInt8)) : ℕ := tablePos texts + 0x10000 * 8

/-- What stands behind the header. -/
def restBytes (memory : ValueMemory) (o : List UInt8 → ℕ) (low : Low (List UInt8)) (texts : List (List UInt8)) :
    List UInt8 :=
  valuesBytes memory 16 texts ++ List.replicate 16 0 ++
    (pointers o low (listsPos texts) (List.range 0x10000)).flatMap (le 8) ++
    ((List.range 0x10000).filterMap low).flatMap (listBytes o)

/-- The size of what stands behind the header. -/
def restSize (low : Low (List UInt8)) (texts : List (List UInt8)) : ℕ :=
  (texts.map valueSize).sum + 16 + 0x10000 * 8 + ((List.range 0x10000).map (listSize low)).sum

section Layout

variable {o : List UInt8 → ℕ} {low : Low (List UInt8)} {texts : List (List UInt8)}

theorem pointerTable_length (o : List UInt8 → ℕ) (low : Low (List UInt8)) (p : ℕ) :
    ((pointers o low p (List.range 0x10000)).flatMap (le 8)).length = 0x10000 * 8 := by
  rw [table_length, pointers_length, List.length_range]

theorem restBytes_length (memory : ValueMemory) (o : List UInt8 → ℕ) (low : Low (List UInt8)) (texts : List (List UInt8)) :
    (restBytes memory o low texts).length = restSize low texts := by
  rw [restBytes, List.length_append, List.length_append, List.length_append, valuesBytes_length, List.length_replicate,
    pointerTable_length, lists_length, restSize]

/-- A base with these bytes behind its header. -/
structure Layout (memory : ValueMemory) (o : List UInt8 → ℕ) (low : Low (List UInt8)) (texts : List (List UInt8))
    (bytes : List UInt8) : Prop where
  length : bytes.length = 16 + restSize low texts
  size : bytes.length < 2 ^ 63
  rest : At bytes 16 (restBytes memory o low texts)

theorem Layout.values (h : Layout memory o low texts base) :
    At base 16 (valuesBytes memory 16 texts ++ List.replicate 16 0) := by
  have hrest := h.rest
  unfold restBytes at hrest
  exact (at_append.mp (at_append.mp hrest).1).1

theorem Layout.table (h : Layout memory o low texts base) :
    At base (tablePos texts) ((pointers o low (listsPos texts) (List.range 0x10000)).flatMap (le 8)) := by
  have hrest := h.rest
  unfold restBytes at hrest
  have htable := (at_append.mp (at_append.mp hrest).1).2
  rwa [List.length_append, valuesBytes_length, List.length_replicate, ← Nat.add_assoc] at htable

theorem Layout.lists (h : Layout memory o low texts base) :
    At base (listsPos texts) (((List.range 0x10000).filterMap low).flatMap (listBytes o)) := by
  have hrest := h.rest
  unfold restBytes at hrest
  have hlists := (at_append.mp hrest).2
  rwa [List.length_append, List.length_append, valuesBytes_length, List.length_replicate, pointerTable_length,
    ← Nat.add_assoc, ← Nat.add_assoc] at hlists

/-- The reading sums up the CRC-32 of all that stands behind the header. -/
theorem Layout.scan (h : Layout memory o low texts base) (hshort : ∀ text ∈ texts, text.length < 2 ^ 28)
    (hoffset : ∀ i ranges, low i = some ranges → Offsets o ranges) :
    scanBase base = some (tablePos texts, ngxCrc32Long (restBytes memory o low texts)) := by
  have hlength := h.length
  unfold restSize at hlength
  have htexts : texts.length < base.length + 1 := by
    have hle := length_le_sum fun text (_ : text ∈ texts) => valueSize_pos text
    omega
  have hcount : ((List.range 0x10000).filterMap low).length < base.length + 1 := by
    have hle : ((List.range 0x10000).filterMap low).length ≤
        (((List.range 0x10000).filterMap low).flatMap (listBytes o)).length := by
      rw [List.length_flatMap]
      exact length_le_sum fun ranges _ => by rw [listBytes_length]; omega
    rw [lists_length] at hle
    omega
  have hvalues := scanValues_eq h.values h.size hshort htexts ngxCrc32Init
  have hlists := scanLists_eq h.lists (by
    rw [lists_length, listsPos, tablePos]
    omega) (by
    intro ranges hmem
    obtain ⟨i, -, hi⟩ := List.mem_filterMap.mp hmem
    exact hoffset i ranges hi) hcount
  have htable : bytesAt base (tablePos texts) (0x10000 * 8) =
      (pointers o low (listsPos texts) (List.range 0x10000)).flatMap (le 8) := by
    rw [← pointerTable_length o low (listsPos texts)]
    exact h.table
  rw [valuesBytes_length] at hvalues
  rw [scanBase, hvalues, Option.bind_some]
  show (scanLists base (base.length + 1) (listsPos texts) (scanTable base (tablePos texts) _)).map _ = _
  rw [hlists, Option.map_some, scanTable_eq, htable, ← crc32Update_append, ← crc32Update_append, ← List.append_assoc]
  rfl

/-- The pointers lead to the values and the ranges. -/
theorem Layout.means (h : Layout memory o low texts base)
    (hoffset : ∀ i ranges, low i = some ranges → Offsets o ranges)
    (hvalue : ∀ i ranges, low i = some ranges → ∀ r ∈ ranges, baseValue base (o r.value) = textValue r.value)
    (hwithin : ∀ i ranges, low i = some ranges → ∀ r ∈ ranges, r.start < 2 ^ 16 ∧ r.stop < 2 ^ 16)
    (hfilled : ∀ i ranges, low i = some ranges → ranges ≠ []) {i : ℕ} (hi : i < 0x10000) :
    (High.base base (tablePos texts)).table i = (High.arrays low).table i := by
  have hk : (List.range 0x10000)[i]? = some i := List.getElem?_range hi
  show (if leAt base (tablePos texts + 8 * i) 8 = 0 then none
    else some (baseList base (base.length + 1) (leAt base (tablePos texts + 8 * i) 8))) =
      (low i).map (List.map fun r => ⟨textValue r.value, r.start, r.stop⟩)
  rcases at_pointers h.lists hk with ⟨hnone, hpointer⟩ | ⟨ranges, pos, hi', hle, hpointer, hatList⟩
  · have hzero : leAt base (tablePos texts + 8 * i) 8 = 0 := (at_table h.table hpointer).leAt
    rw [hzero, if_pos rfl, hnone]
    rfl
  · have hlength := listBytes_length o ranges
    have hend := hatList.end_le (by
      intro hnil
      rw [hnil] at hlength
      exact absurd hlength.symm (Nat.succ_ne_zero _))
    have hsize := h.size
    have hpos : leAt base (tablePos texts + 8 * i) 8 = pos := by
      rw [(at_table h.table hpointer).leAt, Nat.mod_eq_of_lt]
      omega
    have hne : pos ≠ 0 := by
      rw [listsPos] at hle
      omega
    rw [hpos, if_neg hne, hi', Option.map_some]
    cases ranges with
    | nil => exact absurd rfl (hfilled i _ hi')
    | cons r ranges =>
        rw [List.length_cons] at hlength
        rw [baseList_eq hatList (hoffset i _ hi') (hwithin i _ hi') (by omega)]
        refine congrArg some (List.map_congr_left fun r' hr' => ?_)
        rw [hvalue i _ hi' r' hr']

end Layout

/-- The base that is written has the size of the file, passes the checks of the reading, and means the same table. -/
theorem createBinaryBase_eq (hd : d.Inv T) (hshort : ∀ n ∈ d.nodes, (d.str n).length < 2 ^ 28) {low : Low (List UInt8)}
    (hlow : Writable d low) {dataSize : ℕ} (hsize : dataSize < 2 ^ 63)
    (hsum : dataSize = 16 + 16 + 0x10000 * 8 + ((d.nodes.map d.str).map valueSize).sum +
      ((List.range 0x10000).map (listSize low)).sum) :
    ∃ bytes ranges crc, ngxStreamGeoCreateBinaryBase memory d low dataSize = some (bytes, dataSize) ∧
      bytes.length = dataSize ∧ bytes.take 12 = ngxStreamGeoHeader.take 12 ∧ scanBase bytes = some (ranges, crc) ∧
      crc.toNat = leAt bytes 12 4 ∧ ∀ i < 0x10000, (High.base bytes ranges).table i = (High.arrays low).table i := by
  have hroot : d.rbtree.root = ptr d.rbtree.sentinel T := hd.valid.rep.path
  obtain ⟨ns, offset, hperm, hcopy, -, hoffset⟩ := @copyValues_eq d T memory [] hd.valid.rep (d.nodes.length + 2)
    (by rw [hd.nodes.length_eq]; omega) ngxStreamGeoHeader fun _ => 0
  rw [← hroot] at hcopy
  have hheader : ngxStreamGeoHeader.length = 16 := rfl
  rw [hheader] at hcopy hoffset
  have hns : (ns.map d.str).Perm (d.nodes.map d.str) := (hperm.trans hd.nodes).map d.str
  generalize ns.map d.str = texts at hcopy hoffset hns
  have hvalues : ((d.nodes.map d.str).map valueSize).sum = (texts.map valueSize).sum := (hns.map valueSize).sum_eq.symm
  -- the file
  have hlists := writeLists_eq hd offset hlow.known (listsPos texts) (List.range 0x10000)
  have hp : (ngxStreamGeoHeader ++ valuesBytes memory 16 texts).length + 16 + 0x10000 * 8 = listsPos texts := by
    rw [List.length_append, hheader, valuesBytes_length]
    rfl
  obtain ⟨o, ho⟩ : ∃ o, o = textOffset d offset := ⟨_, rfl⟩
  rw [← ho] at hlists
  obtain ⟨rest, hrest⟩ : ∃ rest, rest = restBytes memory o low texts := ⟨_, rfl⟩
  have hfile : ngxStreamGeoHeader ++ valuesBytes memory 16 texts ++ List.replicate 16 0 ++
      (pointers o low (listsPos texts) (List.range 0x10000)).flatMap (le 8) ++
      ((List.range 0x10000).filterMap low).flatMap (listBytes o) = ngxStreamGeoHeader ++ rest := by
    rw [hrest, restBytes]
    simp only [List.append_assoc]
  have hrestLength : 16 + rest.length = dataSize := by
    rw [hrest, restBytes_length, restSize]
    omega
  obtain ⟨bytes, hbytes⟩ : ∃ bytes, bytes = ngxStreamGeoHeader.take 12 ++ le 4 (ngxCrc32Long rest).toNat ++ rest := ⟨_, rfl⟩
  have hlength : bytes.length = dataSize := by
    rw [hbytes, List.length_append, List.length_append, le_length, List.length_take, hheader]
    exact hrestLength
  have hlayout : Layout memory o low texts bytes := by
    refine ⟨?_, hlength ▸ hsize, ?_⟩
    · rw [hlength, ← hrestLength, hrest, restBytes_length]
    · have hmiddle := at_middle (ngxStreamGeoHeader.take 12 ++ le 4 (ngxCrc32Long rest).toNat) rest []
      rw [List.append_nil, ← hbytes, List.length_append, le_length, List.length_take, hheader] at hmiddle
      rw [← hrest]
      exact hmiddle
  have hcrc : leAt bytes 12 4 = (ngxCrc32Long rest).toNat := by
    have hmiddle := at_middle (ngxStreamGeoHeader.take 12) (le 4 (ngxCrc32Long rest).toNat) rest
    rw [← hbytes] at hmiddle
    exact hmiddle.leAt.trans (Nat.mod_eq_of_lt (UInt32.toNat_lt _))
  -- the values
  have htexts : ∀ text ∈ texts, text.length < 2 ^ 28 := by
    intro text htext
    obtain ⟨n, hn, rfl⟩ := List.mem_map.mp (hns.mem_iff.mp htext)
    exact hshort n hn
  have hvalue : ∀ i ranges, low i = some ranges → ∀ r ∈ ranges,
      (0 < o r.value ∧ o r.value < 2 ^ 64) ∧ baseValue bytes (o r.value) = textValue r.value := by
    intro i ranges hi r hr
    obtain ⟨n, hn, hstr⟩ := hlow.known i ranges hi r hr
    obtain ⟨hle, hatValue⟩ := hoffset bytes (at_append.mp hlayout.values).1 n (hd.nodes.mem_iff.mpr hn)
    have hend := hatValue.end_le (by
      intro hnil
      have hlen := valueBytes_length memory (offset n) (d.str n)
      rw [hnil] at hlen
      exact absurd hlen.symm (valueSize_pos _).ne')
    have hbound := hlayout.size
    rw [ho, ← hstr, textOffset_eq hd offset hn]
    exact ⟨⟨by omega, by omega⟩, baseValue_eq hatValue hlayout.size (hshort n hn)⟩
  have hoffsets : ∀ i ranges, low i = some ranges → Offsets o ranges := fun i ranges hi r hr => (hvalue i ranges hi r hr).1
  refine ⟨bytes, tablePos texts, ngxCrc32Long rest, ?_, hlength, ?_, ?_, hcrc.symm, fun i hi => ?_⟩
  · -- the writing ends at the end of the file
    have hfileLength : (ngxStreamGeoHeader ++ rest).length = dataSize := by
      rw [List.length_append, hheader]
      exact hrestLength
    have htake : (ngxStreamGeoHeader ++ rest).take 12 = ngxStreamGeoHeader.take 12 := rfl
    have hdrop : (ngxStreamGeoHeader ++ rest).drop 16 = rest := rfl
    rw [ngxStreamGeoCreateBinaryBase, if_pos hsize, hcopy, Option.bind_some]
    dsimp only
    rw [hp, hlists, Option.bind_some]
    dsimp only
    rw [hfile, hfileLength, if_pos (Nat.le_refl _), Nat.sub_self, List.replicate_zero, List.append_nil, htake, hdrop, hbytes]
  · rw [hbytes, List.append_assoc]
    rfl
  · rw [hrest]
    exact hlayout.scan htexts hoffsets
  · exact hlayout.means hoffsets (fun i ranges hi r hr => (hvalue i ranges hi r hr).2) hlow.within hlow.filled hi

end Write

end NginxDtls.Geo
