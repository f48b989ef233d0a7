import NginxDtls.GeoLoad

/-! When the loading of a damaged base is safe: the file is turned down at once, or what is behind its header is laid out
as a base to the last byte. -/

namespace NginxDtls.Geo

open Checked

/-! ### Bytes at positions -/

variable {addr : UInt64} {base mem bytes : List UInt8} {pos n k : ℕ} {w : Walk}

theorem bytesAt_take {q m : ℕ} (h : q + m ≤ pos) : bytesAt (mem.take pos) q m = bytesAt mem q m := by
  rw [bytesAt, bytesAt, List.drop_take, List.take_take, Nat.min_eq_left (by omega)]

theorem bytesAt_append_left {a b : List UInt8} {q m : ℕ} (h : q + m ≤ a.length) :
    bytesAt (a ++ b) q m = bytesAt a q m := by
  rw [bytesAt, bytesAt, List.drop_append_of_le_length (by omega), List.take_append_of_le_length]
  rw [List.length_drop]
  omega

/-- What stands in front of a write stays. -/
theorem leAt_putAt_before {q m : ℕ} (hq : q + m ≤ pos) (hpos : pos ≤ mem.length) :
    leAt (putAt mem pos bytes) q m = leAt mem q m := by
  rw [leAt, leAt, putAt, bytesAt_append_left (by rw [List.length_take]; omega), bytesAt_take hq]

theorem drop_putAt (h : pos + bytes.length ≤ n) (hn : pos + bytes.length ≤ mem.length) :
    (putAt mem pos bytes).drop n = mem.drop n := by
  rw [putAt, ← List.append_assoc, List.drop_append, List.drop_eq_nil_of_le, List.nil_append, List.drop_drop]
  · congr 1
    rw [List.length_append, List.length_take]
    omega
  · rw [List.length_append, List.length_take]
    omega

/-- What was written is read. -/
theorem leAt_putAt {v : ℕ} (h : pos + 8 ≤ mem.length) (hv : v < 2 ^ 64) : leAt (putAt mem pos (le 8 v)) pos 8 = v := by
  have hat : At (putAt mem pos (le 8 v)) pos (le 8 v) := by
    have hlength : (mem.take pos).length = pos := by
      rw [List.length_take]
      omega
    have := at_middle (mem.take pos) (le 8 v) (mem.drop (pos + (le 8 v).length))
    rwa [hlength, List.append_assoc] at this
  rw [hat.leAt, Nat.mod_eq_of_lt]
  exact hv

theorem leAt_of_drop (h : mem.drop pos = base.drop pos) (q m : ℕ) : leAt mem (pos + q) m = leAt base (pos + q) m := by
  rw [leAt, leAt, bytesAt, bytesAt, ← List.drop_drop, h, List.drop_drop]

theorem bytesAt_of_drop (h : mem.drop pos = base.drop pos) (m : ℕ) : bytesAt mem pos m = bytesAt base pos m := by
  rw [bytesAt, bytesAt, h]

/-! ### A step of the walk -/

/-- The walk has come to a position: what is behind is untouched, what is in front is summed up, and its pointers are
relocated. -/
structure Walked (addr : UInt64) (base : List UInt8) (pos : ℕ) (w : Walk) : Prop where
  length_eq : w.mem.length = base.length
  header_le : 16 ≤ pos
  inside : pos ≤ base.length
  rest : w.mem.drop pos = base.drop pos
  header : w.mem.take 16 = base.take 16
  crc : w.crc = ngxCrc32Update ngxCrc32Init (bytesAt base 16 (pos - 16))
  before : ∀ p ∈ w.relocated, 16 ≤ p ∧ p + 8 ≤ pos
  relocated : ∀ p ∈ w.relocated, leAt w.mem p 8 = (UInt64.ofNat (leAt base p 8) + addr).toNat

theorem walked_start (h : 16 ≤ base.length) : Walked addr base 16 ⟨base, ngxCrc32Init, []⟩ where
  length_eq := rfl
  header_le := Nat.le_refl 16
  inside := h
  rest := rfl
  header := rfl
  crc := by rw [Nat.sub_self, bytesAt, List.take_zero]; rfl
  before := fun _ hp => absurd hp List.not_mem_nil
  relocated := fun _ hp => absurd hp List.not_mem_nil

theorem crc_step (h : 16 ≤ pos) : ngxCrc32Update (ngxCrc32Update ngxCrc32Init (bytesAt base 16 (pos - 16)))
    (bytesAt base pos n) = ngxCrc32Update ngxCrc32Init (bytesAt base 16 (pos + n - 16)) := by
  rw [← crc32Update_append]
  congr 1
  rw [show pos + n - 16 = pos - 16 + n by omega, bytesAt_add, show 16 + (pos - 16) = pos by omega]

theorem drop_of_drop_le {m : ℕ} (h : mem.drop pos = base.drop pos) : mem.drop (pos + m) = base.drop (pos + m) := by
  rw [← List.drop_drop, h, List.drop_drop]

/-- A piece without a pointer. -/
theorem Walked.sum (h : Walked addr base pos w) (hn : pos + n ≤ base.length) : Walked addr base (pos + n) (w.sum pos n) where
  length_eq := h.length_eq
  header_le := h.header_le.trans (Nat.le_add_right pos n)
  inside := hn
  rest := drop_of_drop_le h.rest
  header := h.header
  crc := by rw [Walk.sum, h.crc, bytesAt_of_drop h.rest, crc_step h.header_le]
  before := fun p hp => ⟨(h.before p hp).1, (h.before p hp).2.trans (Nat.le_add_right pos n)⟩
  relocated := h.relocated

/-- A piece with a pointer in it. -/
theorem Walked.piece (h : Walked addr base pos w) (hn : pos + n ≤ base.length) (hk : k + 8 ≤ n) :
    Walked addr base (pos + n) ((w.sum pos n).relocate addr (pos + k)) := by
  have hsum := h.sum hn
  have hlength := h.length_eq
  have hheader := h.header_le
  have hle : ∀ v, (le 8 v).length = 8 := le_length 8
  refine ⟨?_, hsum.header_le, hn, ?_, ?_, hsum.crc, ?_, ?_⟩
  · exact (Walk.relocate_length addr (show pos + k + 8 ≤ (w.sum pos n).mem.length from by
      change _ ≤ w.mem.length; omega)).trans hlength
  · exact (drop_putAt (by rw [hle]; omega) (by rw [hle]; change _ ≤ w.mem.length; omega)).trans hsum.rest
  · refine Eq.trans ?_ h.header
    change (putAt w.mem _ _).take 16 = _
    rw [putAt, List.take_append_of_le_length (by rw [List.length_take]; omega), List.take_take,
      Nat.min_eq_left (by omega)]
  · intro p hp
    obtain hp | hp := List.mem_append.mp hp
    · exact hsum.before p hp
    · rw [List.mem_singleton.mp hp]
      omega
  · intro p hp
    have hpointer : leAt w.mem (pos + k) 8 = leAt base (pos + k) 8 := leAt_of_drop h.rest k 8
    obtain hp | hp := List.mem_append.mp hp
    · obtain ⟨-, hend⟩ := h.before p hp
      exact (leAt_putAt_before (by omega) (by change _ ≤ w.mem.length; omega)).trans (h.relocated p hp)
    · rw [List.mem_singleton.mp hp, ← hpointer]
      exact leAt_putAt (by change _ ≤ w.mem.length; omega) (UInt64.toNat_lt _)

/-! ### Pieces -/

theorem leAt_bytesAt {m : ℕ} (h : k + m ≤ n) : leAt (bytesAt base pos n) k m = leAt base (pos + k) m := by
  rw [leAt, leAt, bytesAt, bytesAt, bytesAt, List.drop_take, List.take_take, Nat.min_eq_left (by omega), List.drop_drop]

theorem bytesAt_length (h : pos + n ≤ base.length) : (bytesAt base pos n).length = n := by
  rw [bytesAt, List.length_take, List.length_drop]
  omega

theorem drop_eq_bytesAt (base : List UInt8) (pos n : ℕ) : base.drop pos = bytesAt base pos n ++ base.drop (pos + n) := by
  rw [bytesAt, ← List.drop_drop, List.take_append_drop]

/-- A piece at the position of the walk. -/
theorem piece_of_drop {piece rest : List UInt8} (h : base.drop pos = piece ++ rest) (hle : pos ≤ base.length) :
    pos + piece.length ≤ base.length ∧ base.drop (pos + piece.length) = rest ∧
      ∀ k m, k + m ≤ piece.length → leAt base (pos + k) m = leAt piece k m := by
  have hlength := congrArg List.length h
  rw [List.length_drop, List.length_append] at hlength
  refine ⟨by omega, ?_, fun k m hk => ?_⟩
  · rw [← List.drop_drop, h, List.drop_left]
  · rw [leAt, leAt, bytesAt, ← List.drop_drop, h]
    exact congrArg ofLe (bytesAt_append_left hk)

/-- The pointers that the walk has relocated, as they were stored. -/
def stored (base : List UInt8) (w : Walk) : List ℕ := w.relocated.map (leAt base · 8)

theorem stored_relocate (pos n p : ℕ) : stored base ((w.sum pos n).relocate addr p) = stored base w ++ [leAt base p 8] := by
  rw [stored, Walk.relocate, Walk.sum, List.map_append]
  rfl

/-! ### Values -/

theorem Walked.leAt_eq (h : Walked addr base pos w) (k m : ℕ) : leAt w.mem (pos + k) m = leAt base (pos + k) m :=
  leAt_of_drop h.rest k m

theorem Walked.leAt_here (h : Walked addr base pos w) (m : ℕ) : leAt w.mem pos m = leAt base pos m := h.leAt_eq 0 m

/-- Values that are walked over are laid out so. -/
theorem loadValues_ok {r : ℕ × Walk} (h : Walked addr base pos w) (hr : loadValues addr pos w = some r) :
    Walked addr base r.1 r.2 ∧ ∃ (values : List (List UInt8)) (last : List UInt8),
      base.drop pos = values.flatten ++ (last ++ base.drop r.1) ∧
      (∀ v ∈ values, ValueRecord v) ∧ last.length = 16 ∧ leAt last 8 8 = 0 := by
  induction pos, w using loadValues.induct addr with
  | case1 pos w hin hzero =>
      rw [loadValues, dif_pos hin, if_pos hzero, Option.some_inj] at hr
      rw [h.length_eq] at hin
      rw [h.leAt_eq] at hzero
      subst hr
      refine ⟨h.sum hin, [], bytesAt base pos 16, drop_eq_bytesAt base pos 16, by simp, bytesAt_length hin, ?_⟩
      rw [leAt_bytesAt (by decide), hzero]
  | case2 pos w hin hdata len hlen ih =>
      rw [loadValues, dif_pos hin, if_neg hdata, if_pos hlen] at hr
      have hsize := ngxAlign_pos (leAt w.mem pos 4 % 2 ^ 28)
      have hlength : leAt w.mem pos 4 = leAt base pos 4 := h.leAt_eq 0 4
      rw [h.leAt_eq] at hdata
      rw [h.length_eq] at hlen
      obtain ⟨hwalked, values, last, hrest, hvalues, hlast⟩ := ih (h.piece hlen (by omega)) hr
      refine ⟨hwalked, bytesAt base pos len :: values, last, ?_, ?_, hlast⟩
      · rw [List.flatten_cons, List.append_assoc, ← hrest, ← drop_eq_bytesAt]
      · intro v hv
        obtain rfl | hv := List.mem_cons.mp hv
        · refine ⟨?_, ?_⟩
          · rw [bytesAt_length hlen, leAt_bytesAt (by omega), Nat.add_zero, ← hlength]
          · rwa [leAt_bytesAt (by omega)]
        · exact hvalues v hv
  | case3 pos w hin hdata len hlen =>
      rw [loadValues, dif_pos hin, if_neg hdata, if_neg hlen] at hr
      exact absurd hr (by simp)
  | case4 pos w hin =>
      rw [loadValues, dif_neg hin] at hr
      exact absurd hr (by simp)

/-- Values that are laid out so are walked over. -/
theorem loadValues_defined {values : List (List UInt8)} {last rest : List UInt8} (h : Walked addr base pos w)
    (hsplit : base.drop pos = values.flatten ++ (last ++ rest)) (hvalues : ∀ v ∈ values, ValueRecord v)
    (hlast : last.length = 16 ∧ leAt last 8 8 = 0) : ∃ r, loadValues addr pos w = some r ∧ Walked addr base r.1 r.2 ∧
      base.drop r.1 = rest ∧ stored base r.2 = stored base w ++ values.map (leAt · 8 8) := by
  induction values generalizing pos w with
  | nil =>
      rw [List.flatten_nil, List.nil_append] at hsplit
      obtain ⟨hin, hrest, hat⟩ := piece_of_drop hsplit h.inside
      rw [hlast.1] at hin hrest hat
      refine ⟨(pos + 16, w.sum pos 16), ?_, h.sum hin, hrest, (List.append_nil _).symm⟩
      rw [loadValues, dif_pos (by rwa [h.length_eq]), if_pos]
      rw [h.leAt_eq, hat 8 8 (by decide), hlast.2]
  | cons v values ih =>
      rw [List.flatten_cons, List.append_assoc] at hsplit
      obtain ⟨hlength, hdata⟩ := hvalues v List.mem_cons_self
      have hsize := ngxAlign_pos (leAt v 0 4 % 2 ^ 28)
      obtain ⟨hin, hrest, hat⟩ := piece_of_drop hsplit h.inside
      have hlen : leAt w.mem pos 4 = leAt v 0 4 := (h.leAt_eq 0 4).trans (hat 0 4 (by omega))
      have hpiece := h.piece hin (show 8 + 8 ≤ v.length by omega)
      obtain ⟨r, hr, hwalked, hend, hstored⟩ := ih hpiece hrest fun v' hv' => hvalues v' (List.mem_cons_of_mem v hv')
      refine ⟨r, ?_, hwalked, hend, ?_⟩
      · rw [loadValues, dif_pos (by rw [h.length_eq]; omega), if_neg (by rw [h.leAt_eq, hat 8 8 (by omega)]; exact hdata)]
        simp only [hlen, ← hlength]
        rw [if_pos (by rwa [h.length_eq]), hr]
      · rw [hstored, stored_relocate, hat 8 8 (by omega), List.append_assoc]
        rfl

/-! ### The table -/

/-- An entry is summed up, and relocated if it is not null. -/
theorem Walked.entry (h : Walked addr base pos w) (hn : pos + 8 ≤ base.length) : Walked addr base (pos + 8)
    (if leAt w.mem pos 8 ≠ 0 then (w.sum pos 8).relocate addr pos else w.sum pos 8) := by
  split
  · exact h.piece (k := 0) hn (Nat.le_refl 8)
  · exact h.sum hn

theorem loadTable_ok {r : ℕ × Walk} (h : Walked addr base pos w) (hr : loadTable addr n pos w = some r) :
    Walked addr base r.1 r.2 ∧ ∃ table : List (List UInt8), base.drop pos = table.flatten ++ base.drop r.1 ∧
      table.length = n ∧ ∀ e ∈ table, e.length = 8 := by
  induction n generalizing pos w with
  | zero =>
      obtain rfl := Option.some.inj hr
      exact ⟨h, [], rfl, rfl, by simp⟩
  | succ n ih =>
      rw [loadTable] at hr
      split at hr
      · rename_i hin
        rw [h.length_eq] at hin
        obtain ⟨hwalked, table, hrest, hlength, hentry⟩ := ih (h.entry hin) hr
        refine ⟨hwalked, bytesAt base pos 8 :: table, ?_, congrArg Nat.succ hlength, ?_⟩
        · rw [List.flatten_cons, List.append_assoc, ← hrest, ← drop_eq_bytesAt]
        · intro e he
          obtain rfl | he := List.mem_cons.mp he
          · exact bytesAt_length hin
          · exact hentry e he
      · exact absurd hr (by simp)

theorem loadTable_defined {table : List (List UInt8)} {rest : List UInt8} (h : Walked addr base pos w)
    (hsplit : base.drop pos = table.flatten ++ rest) (hentry : ∀ e ∈ table, e.length = 8) :
    ∃ r, loadTable addr table.length pos w = some r ∧ Walked addr base r.1 r.2 ∧ base.drop r.1 = rest ∧
      stored base r.2 = stored base w ++ (table.map (leAt · 0 8)).filter (· ≠ 0) := by
  induction table generalizing pos w with
  | nil => exact ⟨(pos, w), rfl, h, hsplit, (List.append_nil _).symm⟩
  | cons e table ih =>
      rw [List.flatten_cons, List.append_assoc] at hsplit
      have hlength := hentry e List.mem_cons_self
      obtain ⟨hin, hrest, hat⟩ := piece_of_drop hsplit h.inside
      rw [hlength] at hin hrest hat
      have hpointer : leAt base pos 8 = leAt e 0 8 := hat 0 8 (Nat.le_refl 8)
      have hmem : leAt w.mem pos 8 = leAt e 0 8 := (h.leAt_eq 0 8).trans hpointer
      obtain ⟨r, hr, hwalked, hend, hstored⟩ := ih (h.entry hin) hrest fun e' he' => hentry e' (List.mem_cons_of_mem e he')
      refine ⟨r, ?_, hwalked, hend, ?_⟩
      · rw [List.length_cons, loadTable, if_pos (by rwa [h.length_eq]), hr]
      · rw [hstored, List.map_cons]
        by_cases hzero : leAt e 0 8 = 0
        · rw [if_neg (by rw [hmem]; exact not_not.mpr hzero), List.filter_cons_of_neg (by simpa using hzero)]
          rfl
        · rw [if_pos (by rw [hmem]; exact hzero), List.filter_cons_of_pos (by simpa using hzero), stored_relocate, hpointer,
            List.append_assoc]
          rfl

/-! ### Ranges -/

theorem eq_le_zero {m : List UInt8} (h : ofLe m = 0) : m = le m.length 0 := by
  induction m with
  | nil => rfl
  | cons b m ih =>
      rw [ofLe] at h
      have hb : b = 0 := UInt8.toNat_inj.mp (by change b.toNat = 0; omega)
      rw [List.length_cons, le, Nat.zero_mod, Nat.zero_div, ← ih (by omega), hb]
      rfl

theorem bytesAt_of_zero (hin : pos + 8 ≤ base.length) (hzero : leAt base pos 8 = 0) : bytesAt base pos 8 = le 8 0 := by
  have := eq_le_zero hzero
  rwa [bytesAt_length hin] at this

theorem loadRanges_ok {w' : Walk} (h : Walked addr base pos w) (hr : loadRanges addr pos w = some w') :
    Walked addr base base.length w' ∧ ∃ (ranges : List (List UInt8)) (lists : List (List (List UInt8))),
      base.drop pos = bucketText ranges ++ lists.flatMap bucketText ∧ (∀ r ∈ ranges, RangeRecord r) ∧
      ∀ ranges ∈ lists, ∀ r ∈ ranges, RangeRecord r := by
  induction pos, w using loadRanges.induct addr with
  | case1 pos w hin hdata hlen ih =>
      rw [loadRanges, dif_pos hin, if_pos hdata, if_pos hlen] at hr
      rw [h.leAt_here] at hdata
      rw [h.length_eq] at hlen
      obtain ⟨hwalked, ranges, lists, hrest, hranges, hlists⟩ := ih (h.piece (k := 0) hlen (by decide)) hr
      refine ⟨hwalked, bytesAt base pos 16 :: ranges, lists, ?_, ?_, hlists⟩
      · rw [drop_eq_bytesAt base pos 16, hrest, bucketText, bucketText, List.flatten_cons, List.append_assoc,
          List.append_assoc, List.append_assoc]
      · intro r hmem
        obtain rfl | hmem := List.mem_cons.mp hmem
        · exact ⟨bytesAt_length hlen, by rwa [leAt_bytesAt (by decide)]⟩
        · exact hranges r hmem
  | case2 pos w hin hdata hlen =>
      rw [loadRanges, dif_pos hin, if_pos hdata, if_neg hlen] at hr
      exact absurd hr (by simp)
  | case3 pos w hin hzero hmore ih =>
      rw [loadRanges, dif_pos hin, if_neg hzero, if_pos hmore] at hr
      rw [not_not, h.leAt_here] at hzero
      rw [h.length_eq] at hin
      obtain ⟨hwalked, ranges, lists, hrest, hranges, hlists⟩ := ih (h.sum hin) hr
      refine ⟨hwalked, [], ranges :: lists, ?_, by simp, ?_⟩
      · rw [drop_eq_bytesAt base pos 8, hrest, bytesAt_of_zero hin hzero]
        rfl
      · intro ranges' hmem
        obtain rfl | hmem := List.mem_cons.mp hmem
        · exact hranges
        · exact hlists ranges' hmem
  | case4 pos w hin hzero hmore =>
      rw [loadRanges, dif_pos hin, if_neg hzero, if_neg hmore] at hr
      obtain rfl := Option.some.inj hr
      rw [not_not, h.leAt_here] at hzero
      rw [h.length_eq] at hin hmore
      have hend : pos + 8 = base.length := by omega
      refine ⟨hend ▸ h.sum hin, [], [], ?_, by simp, by simp⟩
      rw [drop_eq_bytesAt base pos 8, hend, List.drop_length, bytesAt_of_zero hin hzero]
      rfl
  | case5 pos w hin =>
      rw [loadRanges, dif_neg hin] at hr
      exact absurd hr (by simp)

/-- The walk over one bucket. -/
theorem loadRanges_bucket {ranges : List (List UInt8)} {rest : List UInt8} (h : Walked addr base pos w)
    (hsplit : base.drop pos = bucketText ranges ++ rest) (hranges : ∀ r ∈ ranges, RangeRecord r) : ∃ pos' w',
      loadRanges addr pos w = loadLists addr pos' w' ∧ Walked addr base pos' w' ∧ base.drop pos' = rest ∧
        stored base w' = stored base w ++ ranges.map (leAt · 0 8) := by
  induction ranges generalizing pos w with
  | nil =>
      have hmark : base.drop pos = le 8 0 ++ rest := hsplit
      obtain ⟨hin, hrest, hat⟩ := piece_of_drop hmark h.inside
      rw [le_length] at hin hrest hat
      have hzero : leAt base pos 8 = 0 := hat 0 8 (Nat.le_refl 8)
      refine ⟨pos + 8, w.sum pos 8, ?_, h.sum hin, hrest, (List.append_nil _).symm⟩
      rw [loadRanges, dif_pos (by rwa [h.length_eq]), if_neg (by rw [h.leAt_here]; exact not_not.mpr hzero)]
      rfl
  | cons r ranges ih =>
      have hpiece : base.drop pos = r ++ (bucketText ranges ++ rest) := by
        rw [hsplit, bucketText, bucketText, List.flatten_cons]
        simp only [List.append_assoc]
      obtain ⟨hlength, hdata⟩ := hranges r List.mem_cons_self
      obtain ⟨hin, hrest, hat⟩ := piece_of_drop hpiece h.inside
      rw [hlength] at hin hrest hat
      have hpointer : leAt base pos 8 = leAt r 0 8 := hat 0 8 (by decide)
      obtain ⟨pos', w', hw', hwalked, hend, hstored⟩ := ih (h.piece (k := 0) hin (by decide)) hrest
        fun r' hr' => hranges r' (List.mem_cons_of_mem r hr')
      refine ⟨pos', w', ?_, hwalked, hend, ?_⟩
      · rw [loadRanges, dif_pos (by rw [h.length_eq]; omega), if_pos (by rw [h.leAt_here, hpointer]; exact hdata),
          if_pos (by rwa [h.length_eq]), ← hw']
        rfl
      · rw [hstored, stored_relocate, Nat.add_zero, hpointer, List.append_assoc]
        rfl

theorem loadLists_ok {w' : Walk} (h : Walked addr base pos w) (hr : loadLists addr pos w = some w') :
    Walked addr base base.length w' ∧ ∃ lists : List (List (List UInt8)), base.drop pos = lists.flatMap bucketText ∧
      ∀ ranges ∈ lists, ∀ r ∈ ranges, RangeRecord r := by
  rw [loadLists] at hr
  split at hr
  · obtain ⟨hwalked, ranges, lists, hrest, hranges, hlists⟩ := loadRanges_ok h hr
    refine ⟨hwalked, ranges :: lists, hrest, ?_⟩
    intro ranges' hmem
    obtain rfl | hmem := List.mem_cons.mp hmem
    · exact hranges
    · exact hlists ranges' hmem
  · rename_i hend
    obtain rfl := Option.some.inj hr
    rw [h.length_eq] at hend
    have hpos : pos = base.length := Nat.le_antisymm h.inside (Nat.le_of_not_lt hend)
    subst hpos
    exact ⟨h, [], List.drop_length, by simp⟩

theorem loadLists_defined {lists : List (List (List UInt8))} (h : Walked addr base pos w)
    (hsplit : base.drop pos = lists.flatMap bucketText) (hlists : ∀ ranges ∈ lists, ∀ r ∈ ranges, RangeRecord r) :
    ∃ w', loadLists addr pos w = some w' ∧ Walked addr base base.length w' ∧
      stored base w' = stored base w ++ lists.flatten.map (leAt · 0 8) := by
  induction lists generalizing pos w with
  | nil =>
      have hpos : pos = base.length := Nat.le_antisymm h.inside (List.drop_eq_nil_iff.mp hsplit)
      subst hpos
      refine ⟨w, ?_, h, (List.append_nil _).symm⟩
      rw [loadLists, if_neg (by rw [h.length_eq]; exact Nat.lt_irrefl _)]
  | cons ranges lists ih =>
      rw [List.flatMap_cons] at hsplit
      have hmore : pos < base.length := by
        have hlength := congrArg List.length hsplit
        rw [List.length_drop, List.length_append, bucketText, List.length_append, le_length] at hlength
        omega
      obtain ⟨pos', w', hw', hwalked, hend, hstored⟩ := loadRanges_bucket h hsplit (hlists ranges List.mem_cons_self)
      obtain ⟨w'', hw'', hwalked', hstored'⟩ := ih hwalked hend fun r hr => hlists r (List.mem_cons_of_mem ranges hr)
      refine ⟨w'', ?_, hwalked', ?_⟩
      · rw [loadLists, if_pos (by rwa [h.length_eq]), hw', hw'']
      · rw [hstored', hstored, List.flatten_cons, List.map_append, List.append_assoc]

/-! ### The whole walk -/

theorem loadWalk_ok {r : ℕ × Walk} (hlong : 16 ≤ base.length) (hr : loadWalk addr base = some r) :
    Nonempty (BaseBody (base.drop 16)) := by
  obtain ⟨values, hvalues, hr⟩ := Option.bind_eq_some_iff.mp hr
  obtain ⟨table, htable, hr⟩ := Option.bind_eq_some_iff.mp hr
  obtain ⟨w', hlists, -⟩ := Option.map_eq_some_iff.mp hr
  obtain ⟨hwalked, vs, last, hvrest, hvs, hlast⟩ := loadValues_ok (walked_start hlong) hvalues
  obtain ⟨hwalked, es, herest, heslength, hes⟩ := loadTable_ok hwalked htable
  obtain ⟨-, ls, hlrest, hls⟩ := loadLists_ok hwalked hlists
  exact ⟨⟨vs, last, es, ls, by rw [hvrest, herest, hlrest], hvs, hlast, heslength, hes, hls⟩⟩

theorem loadWalk_defined (addr : UInt64) (hlong : 16 ≤ base.length) (l : BaseBody (base.drop 16)) :
    ∃ r, loadWalk addr base = some r ∧ Walked addr base base.length r.2 ∧ stored base r.2 = l.pointers := by
  have hstart : Walked addr base 16 ⟨base, ngxCrc32Init, []⟩ := walked_start hlong
  obtain ⟨values, hvalues, hwalked, hrest, hvstored⟩ := loadValues_defined hstart l.body_eq l.values_record l.last_record
  obtain ⟨table, htable, hwalked, hrest, htstored⟩ := loadTable_defined hwalked hrest l.table_entry
  obtain ⟨w', hlists, hwalked, hlstored⟩ := loadLists_defined hwalked hrest l.lists_record
  rw [l.table_length] at htable
  refine ⟨(values.1, w'), ?_, hwalked, ?_⟩
  · rw [loadWalk, hvalues, Option.bind_some, htable, Option.bind_some, hlists]
    rfl
  · rw [hlstored, htstored, hvstored, BaseBody.pointers, List.append_assoc, List.append_assoc]
    rfl

/-! ### The sum and the pointers -/

theorem Walked.crc_iff (h : Walked addr base base.length w) :
    (ngxCrc32Final w.crc).toNat = leAt w.mem 12 4 ↔ CrcMatches base := by
  have htake : ∀ mem : List UInt8, bytesAt (mem.take 16) 12 4 = bytesAt mem 12 4 := fun _ => bytesAt_take (by decide)
  have hheader : leAt w.mem 12 4 = leAt base 12 4 := by
    rw [leAt, leAt, ← htake w.mem, h.header, htake]
  have hbody : bytesAt base 16 (base.length - 16) = base.drop 16 := by
    rw [bytesAt, ← List.length_drop, List.take_length]
  rw [hheader, h.crc, hbody, CrcMatches]

theorem ofLe_lt (m : List UInt8) : ofLe m < 256 ^ m.length := by
  induction m with
  | nil => decide
  | cons b m ih =>
      have hb := b.toNat_lt
      rw [ofLe, List.length_cons, Nat.pow_succ]
      omega

theorem Walked.pointedTo (h : Walked addr base pos w) {p : ℕ} (hp : p ∈ w.relocated) :
    pointedTo addr w.mem p = leAt base p 8 := by
  have hle : (bytesAt base p 8).length ≤ 8 := List.length_take_le _ _
  have hlt : leAt base p 8 < 2 ^ 64 := (ofLe_lt _).trans_le (Nat.pow_le_pow_right (by decide) hle)
  rw [Geo.pointedTo, h.relocated p hp, UInt64.ofNat_toNat, UInt64.add_sub_cancel, UInt64.toNat_ofNat',
    Nat.mod_eq_of_lt hlt]

theorem Walked.pointers_iff (h : Walked addr base pos w) : (∀ p ∈ w.relocated, Geo.pointedTo addr w.mem p < base.length) ↔
    ∀ p ∈ stored base w, p < base.length := by
  constructor
  · intro hall p hp
    obtain ⟨q, hq, rfl⟩ := List.mem_map.mp hp
    exact h.pointedTo hq ▸ hall q hq
  · intro hall p hp
    rw [h.pointedTo hp]
    exact hall _ (List.mem_map_of_mem hp)

/-! ### The walk and the scan

`scanBase` goes over the same bytes without the memory, and reads zeros behind the end. Wherever the walk is defined the
two agree. -/

theorem scanValues_of_load {fuel : ℕ} {r : ℕ × Walk} (h : Walked addr base pos w) (hfuel : base.length < pos + fuel)
    (hr : loadValues addr pos w = some r) : scanValues base fuel pos w.crc = some (r.1, r.2.crc) := by
  induction fuel generalizing pos w with
  | zero =>
      have hin := h.inside
      omega
  | succ fuel ih =>
      have hsize := ngxAlign_pos (leAt w.mem pos 4 % 2 ^ 28)
      rw [loadValues] at hr
      rw [scanValues, ← h.leAt_eq 8 8, ← h.leAt_here 4]
      split at hr
      · split at hr
        · rename_i hzero
          obtain rfl := Option.some.inj hr
          rw [if_pos hzero, ← bytesAt_of_drop h.rest]
          rfl
        · rename_i hdata
          dsimp only at hr
          split at hr
          · rename_i hlen
            rw [h.length_eq] at hlen
            rw [if_neg hdata, ← bytesAt_of_drop h.rest]
            exact ih (h.piece hlen (show 8 + 8 ≤ _ from hsize)) (by omega) hr
          · exact absurd hr (by simp)
      · exact absurd hr (by simp)

theorem scanLists_of_ranges {w' : Walk} (h : Walked addr base pos w) (hr : loadRanges addr pos w = some w') {fuel fuel' : ℕ}
    (hfuel : base.length < pos + fuel) (hfuel' : base.length < pos + 8 + fuel') :
    (scanList base fuel pos w.crc).bind (fun r => scanLists base fuel' r.1 r.2) = some w'.crc := by
  have hfuelPos : fuel ≠ 0 := by
    have hin := h.inside
    omega
  induction pos, w using loadRanges.induct addr generalizing fuel fuel' with
  | case1 pos w hin hdata hlen ih =>
      obtain ⟨fuel, rfl⟩ := Nat.exists_eq_succ_of_ne_zero hfuelPos
      rw [loadRanges, dif_pos hin, if_pos hdata, if_pos hlen] at hr
      rw [h.leAt_here] at hdata
      rw [h.length_eq] at hlen
      rw [scanList, if_neg hdata, ← bytesAt_of_drop h.rest]
      exact ih (h.piece (k := 0) hlen (by decide)) hr (by omega) (by omega) (by omega)
  | case2 pos w hin hdata hlen =>
      rw [loadRanges, dif_pos hin, if_pos hdata, if_neg hlen] at hr
      exact absurd hr (by simp)
  | case3 pos w hin hzero hmore ih =>
      obtain ⟨fuel, rfl⟩ := Nat.exists_eq_succ_of_ne_zero hfuelPos
      rw [loadRanges, dif_pos hin, if_neg hzero, if_pos hmore] at hr
      rw [not_not, h.leAt_here] at hzero
      rw [h.length_eq] at hin hmore
      obtain ⟨fuel', rfl⟩ : ∃ f, fuel' = f + 1 := ⟨fuel' - 1, by omega⟩
      rw [scanList, if_pos hzero, ← bytesAt_of_drop h.rest, Option.bind_some, scanLists, if_pos hmore]
      exact ih (h.sum hin) hr (by omega) (by omega) (by omega)
  | case4 pos w hin hzero hmore =>
      obtain ⟨fuel, rfl⟩ := Nat.exists_eq_succ_of_ne_zero hfuelPos
      rw [loadRanges, dif_pos hin, if_neg hzero, if_neg hmore] at hr
      obtain rfl := Option.some.inj hr
      rw [not_not, h.leAt_here] at hzero
      rw [h.length_eq] at hin hmore
      obtain ⟨fuel', rfl⟩ : ∃ f, fuel' = f + 1 := ⟨fuel' - 1, by omega⟩
      rw [scanList, if_pos hzero, ← bytesAt_of_drop h.rest, Option.bind_some, scanLists, if_neg hmore]
      rfl
  | case5 pos w hin =>
      rw [loadRanges, dif_neg hin] at hr
      exact absurd hr (by simp)

theorem loadTable_pos {r : ℕ × Walk} (hr : loadTable addr n pos w = some r) : r.1 = pos + n * 8 := by
  induction n generalizing pos w with
  | zero =>
      obtain rfl := Option.some.inj hr
      exact (Nat.add_zero pos).symm
  | succ n ih =>
      rw [loadTable] at hr
      split at hr
      · rw [ih hr]
        omega
      · exact absurd hr (by simp)

/-- Where the walk is defined, the scan finds the same table and the same sum. -/
theorem scanBase_of_load {r : ℕ × Walk} (hlong : 16 ≤ base.length) (hr : loadWalk addr base = some r) :
    scanBase base = some (r.1, ngxCrc32Final r.2.crc) := by
  obtain ⟨values, hvalues, hr⟩ := Option.bind_eq_some_iff.mp hr
  obtain ⟨table, htable, hr⟩ := Option.bind_eq_some_iff.mp hr
  obtain ⟨w', hlists, rfl⟩ := Option.map_eq_some_iff.mp hr
  have hstart : Walked addr base 16 ⟨base, ngxCrc32Init, []⟩ := walked_start hlong
  have hwalked := (loadValues_ok hstart hvalues).1
  have hwalked' := (loadTable_ok hwalked htable).1
  have hscan := scanValues_of_load hstart (show base.length < 16 + (base.length + 1) by omega) hvalues
  have hpos := loadTable_pos htable
  have hcrc : scanTable base values.1 values.2.crc = table.2.crc := by
    rw [scanTable_eq, hwalked.crc, crc_step hwalked.header_le, hwalked'.crc, hpos]
  rw [scanBase, hscan, Option.bind_some]
  dsimp only
  rw [hcrc, ← hpos, scanLists]
  rw [loadLists, hwalked'.length_eq] at hlists
  split at hlists
  · rename_i hmore
    rw [if_pos hmore, scanLists_of_ranges hwalked' hlists (by omega) (by omega)]
    rfl
  · rename_i hend
    rw [if_neg hend]
    obtain rfl := Option.some.inj hlists
    rfl

/-- A base is loaded safely just if it is turned down by its header, or is laid out to its last byte and either is turned
down by its sum or has no pointer that leads out of it. -/
theorem geoLoad_safely (addr : UInt64) (base : List UInt8) : LoadsSafely addr base ↔
    base.length < 16 ∨ ¬HeaderMatches base ∨
      ∃ l : BaseBody (base.drop 16), ¬CrcMatches base ∨ ∀ p ∈ l.pointers, p < base.length := by
  by_cases hheader : base.length < 16 ∨ base.take 12 ≠ ngxStreamGeoHeader.take 12
  · rw [LoadsSafely, ngxStreamGeoLoad, if_pos hheader]
    refine iff_of_true trivial ?_
    exact hheader.imp_right .inl
  · rw [LoadsSafely, ngxStreamGeoLoad, if_neg hheader]
    rw [not_or, Nat.not_lt, not_not] at hheader
    obtain ⟨hlong, hmatch⟩ := hheader
    cases hwalk : loadWalk addr base with
    | none =>
        refine iff_of_false (fun hsafe => hsafe) ?_
        rintro (hshort | hno | ⟨l, -⟩)
        · exact absurd hlong (Nat.not_le.mpr hshort)
        · exact hno hmatch
        · obtain ⟨r, hr, -⟩ := loadWalk_defined addr hlong l
          rw [hwalk] at hr
          exact absurd hr (by simp)
    | some r =>
        obtain ⟨l⟩ := loadWalk_ok hlong hwalk
        have hpointers : ∀ l : BaseBody (base.drop 16), Walked addr base base.length r.2 ∧ stored base r.2 = l.pointers := by
          intro l
          obtain ⟨r', hr', hwalked, hstored⟩ := loadWalk_defined addr hlong l
          obtain rfl : r' = r := Option.some.inj (hr'.symm.trans hwalk)
          exact ⟨hwalked, hstored⟩
        obtain ⟨hwalked, hstored⟩ := hpointers l
        by_cases hcrc : CrcMatches base
        · dsimp only
          rw [if_neg (not_not.mpr (hwalked.crc_iff.mpr hcrc))]
          constructor
          · rintro ⟨-, -, hall⟩
            exact .inr (.inr ⟨l, .inr (hstored ▸ hwalked.pointers_iff.mp hall)⟩)
          · rintro (hshort | hno | ⟨l', hno | hall⟩)
            · exact absurd hlong (Nat.not_le.mpr hshort)
            · exact absurd hmatch hno
            · exact absurd hcrc hno
            · exact ⟨hmatch, hcrc, hwalked.pointers_iff.mpr ((hpointers l').2 ▸ hall)⟩
        · dsimp only
          rw [if_pos (mt hwalked.crc_iff.mp hcrc)]
          exact iff_of_true trivial (.inr (.inr ⟨l, .inl hcrc⟩))

/-- A base that was cut behind its header is read beyond its end. -/
theorem geoLoad_cut : ¬LoadsSafely 0x1000 ngxStreamGeoHeader := by
  intro h
  have hwalk : loadWalk 0x1000 ngxStreamGeoHeader = none := by
    rw [loadWalk, loadValues, dif_neg (by decide)]
    rfl
  rw [LoadsSafely, ngxStreamGeoLoad, if_neg (by decide), hwalk] at h
  exact h

end NginxDtls.Geo
