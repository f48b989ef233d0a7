import NginxDtls.ProxyProtocol

/-! The reader of the PROXY protocol stops where the header ends: no byte behind that position has a part in the result, and
no byte behind the buffer is read. -/

namespace NginxDtls.ProxyProtocol

open Reading

variable {last fuel p p' : ℕ} {b : ℕ → UInt8}

/-! ### Separators -/

section Scan

variable {sep : UInt8} {allowed : UInt8 → Bool}

/-- The first separator, with allowed bytes before it. -/
def ScansTo (sep : UInt8) (allowed : UInt8 → Bool) (b : ℕ → UInt8) (p p' : ℕ) : Prop :=
  p < p' ∧ b (p' - 1) = sep ∧ ∀ i, p ≤ i → i + 1 < p' → b i ≠ sep ∧ allowed (b i) = true

theorem scanTo_iff (hlast : last = p + fuel) :
    (scanTo last sep allowed fuel p).val b = some p' ↔ ScansTo sep allowed b p p' ∧ p' ≤ last := by
  induction fuel generalizing p with
  | zero =>
      refine iff_of_false (fun h => absurd h (Option.some_ne_none p').symm) ?_
      rintro ⟨⟨hlt, -⟩, hle⟩
      omega
  | succ fuel ih =>
      rw [scanTo, val_ite, val_byteAt_bind, if_neg (by omega), val_ite, val_ite]
      by_cases hsep : b p = sep
      · rw [if_pos hsep, val_pure, Option.some_inj]
        constructor
        · rintro rfl
          exact ⟨⟨Nat.lt_succ_self p, hsep, fun i hi hi' => by omega⟩, by omega⟩
        · rintro ⟨⟨hlt, -, hbefore⟩, -⟩
          by_contra hne
          exact (hbefore p (Nat.le_refl p) (by omega)).1 hsep
      · rw [if_neg hsep]
        by_cases hallowed : allowed (b p) = true
        · rw [if_pos hallowed, ih (p := p + 1) (by omega)]
          refine and_congr_left fun hle => ⟨?_, ?_⟩
          · rintro ⟨hlt, hstop, hbefore⟩
            refine ⟨by omega, hstop, fun i hi hi' => ?_⟩
            rcases Nat.eq_or_lt_of_le hi with rfl | hi
            · exact ⟨hsep, hallowed⟩
            · exact hbefore i hi hi'
          · rintro ⟨hlt, hstop, hbefore⟩
            have hne : p' ≠ p + 1 := by
              rintro rfl
              exact hsep hstop
            exact ⟨by omega, hstop, fun i hi => hbefore i (by omega)⟩
        · rw [if_neg hallowed, val_pure]
          refine iff_of_false (fun h => absurd h (Option.some_ne_none p').symm) ?_
          rintro ⟨⟨hlt, hstop, hbefore⟩, -⟩
          have hne : p' ≠ p + 1 := by
            rintro rfl
            exact hsep hstop
          exact hallowed (hbefore p (Nat.le_refl p) (by omega)).2

theorem scanTo_inside (hlast : last = p + fuel) : (scanTo last sep allowed fuel p).Inside last b := by
  induction fuel generalizing p with
  | zero => exact inside_pure _
  | succ fuel ih =>
      rw [scanTo]
      simp only [inside_ite, inside_byteAt_bind, inside_pure, implies_true, true_and, and_true]
      exact fun hne => ⟨by omega, fun _ _ => ih (by omega)⟩

/-- The text before the separator. -/
theorem ScansTo.congr {b' : ℕ → UInt8} (h : ScansTo sep allowed b p p') (hagree : ∀ i < p', b' i = b i) :
    ScansTo sep allowed b' p p' := by
  obtain ⟨hlt, hstop, hbefore⟩ := h
  refine ⟨hlt, (hagree _ (by omega)).trans hstop, fun i hi hi' => ?_⟩
  rw [hagree i (by omega)]
  exact hbefore i hi hi'

/-- What is made of the text before a separator. -/
theorem scan_selfDelimited {α : Type} (f : List UInt8 → Option α) (sep : UInt8) (allowed : UInt8 → Bool) (p : ℕ) :
    SelfDelimited p fun last => andThen (scanTo last sep allowed (last - p) p) fun p' => do
      let t ← bytesFrom p (p' - p - 1)
      return (f t).map fun a => (p', a) := by
  intro last b p' a hp h
  rw [val_andThen] at h
  obtain ⟨p₁, hscan, h⟩ := Option.bind_eq_some_iff.mp h
  obtain ⟨hscan, hend⟩ := (scanTo_iff (Nat.add_sub_cancel' hp).symm).mp hscan
  rw [val_bytesFrom_bind, val_pure] at h
  obtain ⟨a', hf, heq⟩ := Option.map_eq_some_iff.mp h
  obtain ⟨rfl, rfl⟩ := Prod.mk.inj heq
  have hlt := hscan.1
  refine ⟨hlt.le, hend, fun last' b' hend' hagree => ?_⟩
  have hmap : (List.range' p (p₁ - p - 1)).map b' = (List.range' p (p₁ - p - 1)).map b := by
    refine List.map_congr_left fun i hi => hagree i ?_
    have := (List.mem_range'_1.mp hi).2
    omega
  rw [val_andThen, (scanTo_iff (by omega)).mpr ⟨hscan.congr hagree, hend'⟩, Option.bind_some, val_bytesFrom_bind, hmap,
    val_pure, hf]
  rfl

theorem scan_inside {α : Type} (f : List UInt8 → Option α) (hp : p ≤ last) :
    (andThen (scanTo last sep allowed (last - p) p) fun p' => do
      let t ← bytesFrom p (p' - p - 1)
      return (f t).map fun a => (p', a)).Inside last b := by
  rw [inside_andThen]
  refine ⟨scanTo_inside (Nat.add_sub_cancel' hp).symm, fun p' hscan => ?_⟩
  obtain ⟨⟨hlt, -⟩, hend⟩ := (scanTo_iff (Nat.add_sub_cancel' hp).symm).mp hscan
  rw [inside_bytesFrom_bind]
  exact ⟨inside_bytesFrom (by omega), inside_pure _⟩

end Scan

/-! ### Version 1 -/

theorem readLf_selfDelimited (p : ℕ) : SelfDelimited p fun last => readLf last p := by
  intro last b p' a hp h
  have h : (readLf last p).val b = some (p', a) := h
  rw [readLf, val_ite, val_byteAt_bind, val_pure, val_pure] at h
  split at h
  · cases h
  · rename_i hne
    split at h
    · cases h
    · rename_i hlf
      obtain ⟨rfl, -⟩ := Prod.mk.inj (Option.some.inj h)
      refine ⟨Nat.le_succ p, by omega, fun last' b' hend hagree => ?_⟩
      show (readLf last' p).val b' = _
      rw [readLf, val_ite, if_neg (by omega), val_byteAt_bind, val_pure, hagree p (Nat.lt_succ_self p), if_neg hlf]

theorem readTcp_selfDelimited (p : ℕ) : SelfDelimited p fun last => readTcp last p := by
  refine SelfDelimited.andThen (scan_selfDelimited some space isAddrChar p) fun p₁ src => ?_
  refine SelfDelimited.andThen (scan_selfDelimited some space isAddrChar p₁) fun p₂ dst => ?_
  refine SelfDelimited.andThen (scan_selfDelimited portOf space (fun _ => true) p₂) fun p₃ srcPort => ?_
  refine SelfDelimited.andThen (scan_selfDelimited portOf cr (fun _ => true) p₃) fun p₄ dstPort => ?_
  exact SelfDelimited.andThen (readLf_selfDelimited p₄) fun p₅ _ => SelfDelimited.result p₅ _

theorem readLf_inside (hp : p ≤ last) : (readLf last p).Inside last b := by
  rw [readLf]
  simp only [inside_ite, inside_byteAt_bind, inside_pure, implies_true, true_and, and_true]
  exact fun hne => by omega

theorem readTcp_inside (hp : p ≤ last) : (readTcp last p).Inside last b := by
  rw [readTcp, inside_andThen]
  refine ⟨scan_inside some hp, fun src hsrc => ?_⟩
  have hp₁ := (scan_selfDelimited some space isAddrChar p last b src.1 src.2 hp hsrc).2.1
  rw [inside_andThen]
  refine ⟨scan_inside some hp₁, fun dst hdst => ?_⟩
  have hp₂ := (scan_selfDelimited some space isAddrChar src.1 last b dst.1 dst.2 hp₁ hdst).2.1
  rw [inside_andThen]
  refine ⟨scan_inside portOf hp₂, fun srcPort hsrcPort => ?_⟩
  have hp₃ := (scan_selfDelimited portOf space (fun _ => true) dst.1 last b srcPort.1 srcPort.2 hp₂ hsrcPort).2.1
  rw [inside_andThen]
  refine ⟨scan_inside portOf hp₃, fun dstPort hdstPort => ?_⟩
  have hp₄ := (scan_selfDelimited portOf cr (fun _ => true) srcPort.1 last b dstPort.1 dstPort.2 hp₃ hdstPort).2.1
  rw [inside_andThen]
  exact ⟨readLf_inside hp₄, fun _ _ => inside_pure _⟩

/-- The first line end. -/
def LineEnd (b : ℕ → UInt8) (p p' : ℕ) : Prop :=
  p + 2 ≤ p' ∧ b (p' - 2) = cr ∧ b (p' - 1) = lf ∧ ∀ i, p ≤ i → i + 2 < p' → ¬(b i = cr ∧ b (i + 1) = lf)

theorem LineEnd.congr {b' : ℕ → UInt8} (h : LineEnd b p p') (hagree : ∀ i < p', b' i = b i) : LineEnd b' p p' := by
  obtain ⟨hle, hcr, hlf, hbefore⟩ := h
  refine ⟨hle, (hagree _ (by omega)).trans hcr, (hagree _ (by omega)).trans hlf, fun i hi hi' => ?_⟩
  rw [hagree i (by omega), hagree (i + 1) (by omega)]
  exact hbefore i hi hi'

theorem lineEnd_here (h : b p = cr ∧ b (p + 1) = lf) : LineEnd b p p' ↔ p' = p + 2 := by
  constructor
  · rintro ⟨hle, -, -, hbefore⟩
    by_contra hne
    exact hbefore p (Nat.le_refl p) (by omega) h
  · rintro rfl
    exact ⟨Nat.le_refl _, h.1, h.2, fun i hi hi' => by omega⟩

theorem lineEnd_later (h : ¬(b p = cr ∧ b (p + 1) = lf)) : LineEnd b p p' ↔ LineEnd b (p + 1) p' := by
  constructor
  · rintro ⟨hle, hcr, hlf, hbefore⟩
    have hne : p' ≠ p + 2 := by
      rintro rfl
      exact h ⟨hcr, hlf⟩
    exact ⟨by omega, hcr, hlf, fun i hi => hbefore i (by omega)⟩
  · rintro ⟨hle, hcr, hlf, hbefore⟩
    refine ⟨by omega, hcr, hlf, fun i hi hi' => ?_⟩
    rcases Nat.eq_or_lt_of_le hi with rfl | hi
    · exact h
    · exact hbefore i hi hi'

theorem skipLoop_succ : (skipLoop last (fuel + 1) p).val b =
    if p + 1 < last then
      if b p = cr ∧ b (p + 1) = lf then some (p + 2, none) else (skipLoop last fuel (p + 1)).val b
    else none := by
  rw [skipLoop, val_ite, val_byteAt_bind, val_ite, val_byteAt_bind, val_ite, val_pure, val_pure]
  by_cases hcr : b p = cr
  · simp only [hcr, if_true, true_and]
  · simp only [hcr, if_false, false_and]

theorem skipLoop_iff {a : Option NgxProxyProtocol} (hlast : last ≤ p + fuel) :
    (skipLoop last fuel p).val b = some (p', a) ↔ a = none ∧ LineEnd b p p' ∧ p' ≤ last := by
  induction fuel generalizing p with
  | zero =>
      refine iff_of_false (fun h => absurd h (Option.some_ne_none _).symm) ?_
      rintro ⟨-, ⟨hle, -⟩, hend⟩
      omega
  | succ fuel ih =>
      rw [skipLoop_succ]
      by_cases hroom : p + 1 < last
      · rw [if_pos hroom]
        by_cases hhere : b p = cr ∧ b (p + 1) = lf
        · rw [if_pos hhere, lineEnd_here hhere, Option.some_inj, Prod.mk.injEq]
          constructor
          · rintro ⟨rfl, rfl⟩
            exact ⟨rfl, rfl, hroom⟩
          · rintro ⟨rfl, rfl, -⟩
            exact ⟨rfl, rfl⟩
        · rw [if_neg hhere, lineEnd_later hhere, ih (p := p + 1) (by omega)]
      · rw [if_neg hroom]
        refine iff_of_false (fun h => absurd h (Option.some_ne_none _).symm) ?_
        rintro ⟨-, ⟨hle, -⟩, hend⟩
        omega

theorem skipLoop_inside : (skipLoop last fuel p).Inside last b := by
  induction fuel generalizing p with
  | zero => exact inside_pure _
  | succ fuel ih =>
      rw [skipLoop]
      simp only [inside_ite, inside_byteAt_bind, inside_pure, implies_true, true_and, and_true]
      exact fun hroom => ⟨by omega, fun _ => ⟨hroom, fun _ => ih⟩, fun _ => ih⟩

theorem skip_selfDelimited (p : ℕ) : SelfDelimited p fun last => skipLoop last (last - p) p := by
  intro last b p' a hp h
  obtain ⟨ha, hline, hend⟩ := (skipLoop_iff (Nat.add_sub_cancel' hp).ge).mp h
  refine ⟨by have := hline.1; omega, hend, fun last' b' hend' hagree => ?_⟩
  exact (skipLoop_iff (by omega)).mpr ⟨ha, hline.congr hagree, hend'⟩

/-- Bytes that agree. -/
theorem map_agree {b' : ℕ → UInt8} {i k : ℕ} (hagree : ∀ j < p, b' j = b j) (h : i + k ≤ p) :
    (List.range' i k).map b' = (List.range' i k).map b :=
  List.map_congr_left fun j hj => hagree j ((List.mem_range'_1.mp hj).2.trans_le h)

/-- A protocol is told by five bytes. -/
theorem readProtocol_val : (readProtocol last).val b =
    if last < 11 then none
    else
      if (List.range' 6 5).map b = tcpText ++ [52, space] ∨ (List.range' 6 5).map b = tcpText ++ [54, space] then
        (readTcp last 11).val b
      else none := by
  rw [readProtocol, val_ite, val_bytesFrom_bind, val_ite, val_pure]

theorem readProtocol_stops {a : Option NgxProxyProtocol} (h : (readProtocol last).val b = some (p', a)) :
    11 ≤ p' ∧ p' ≤ last ∧ b 6 ≠ 85 ∧ ∀ last' b', p' ≤ last' → (∀ i < p', b' i = b i) →
      (readProtocol last').val b' = some (p', a) := by
  rw [readProtocol_val] at h
  split at h
  · cases h
  · rename_i hroom
    split at h
    · rename_i htcp
      obtain ⟨hle, hend, hsame⟩ := readTcp_selfDelimited 11 last b p' a (Nat.le_of_not_lt hroom) h
      have hsix : b 6 ≠ 85 := by
        intro heq
        rcases htcp with htcp | htcp
        · exact absurd (heq.symm.trans (List.cons.inj htcp).1) (by decide)
        · exact absurd (heq.symm.trans (List.cons.inj htcp).1) (by decide)
      refine ⟨hle, hend, hsix, fun last' b' hend' hagree => ?_⟩
      rw [readProtocol_val, if_neg (by omega), map_agree hagree hle, if_pos htcp]
      exact hsame last' b' hend' hagree
    · cases h

theorem readV1_val : (readV1 last).val b =
    if last < 8 then none
    else
      if (List.range' 0 6).map b = proxyText then
        if 13 ≤ last then
          if (List.range' 6 7).map b = unknownText then (skipLoop last (last - 13) 13).val b else (readProtocol last).val b
        else (readProtocol last).val b
      else none := by
  rw [readV1, val_ite, val_bytesFrom_bind, val_ite, val_ite, val_bytesFrom_bind, val_ite, val_pure]

theorem readV1_stops {a : Option NgxProxyProtocol} (h : (readV1 last).val b = some (p', a)) :
    11 ≤ p' ∧ p' ≤ last ∧ b 0 ≠ 13 ∧ ∀ last' b', p' ≤ last' → (∀ i < p', b' i = b i) →
      (readV1 last').val b' = some (p', a) := by
  rw [readV1_val] at h
  split at h
  · cases h
  · rename_i hroom
    split at h
    · rename_i hproxy
      have hzero : b 0 ≠ 13 := fun heq => absurd (heq.symm.trans (List.cons.inj hproxy).1) (by decide)
      by_cases hunknown : 13 ≤ last ∧ (List.range' 6 7).map b = unknownText
      · rw [if_pos hunknown.1, if_pos hunknown.2] at h
        obtain ⟨hle, hend, hsame⟩ := skip_selfDelimited 13 last b p' a hunknown.1 h
        refine ⟨by omega, hend, hzero, fun last' b' hend' hagree => ?_⟩
        rw [readV1_val, if_neg (by omega), map_agree hagree (by omega), if_pos hproxy, if_pos (by omega),
          map_agree hagree (by omega), if_pos hunknown.2]
        exact hsame last' b' hend' hagree
      · have h : (readProtocol last).val b = some (p', a) := by
          split at h
          · rename_i hthirteen
            rwa [if_neg fun hu => hunknown ⟨hthirteen, hu⟩] at h
          · exact h
        obtain ⟨hle, hend, hsix, hsame⟩ := readProtocol_stops h
        refine ⟨hle, hend, hzero, fun last' b' hend' hagree => ?_⟩
        have hnot : (List.range' 6 7).map b' ≠ unknownText := fun heq =>
          hsix ((hagree 6 (by omega)).symm.trans (List.cons.inj heq).1)
        rw [readV1_val, if_neg (by omega), map_agree hagree (by omega), if_pos hproxy, if_neg hnot, ite_self]
        exact hsame last' b' hend' hagree
    · cases h

theorem readProtocol_inside : (readProtocol last).Inside last b := by
  rw [readProtocol, inside_ite]
  refine ⟨fun _ => inside_pure _, fun hroom => ?_⟩
  rw [inside_bytesFrom_bind, inside_ite]
  exact ⟨inside_bytesFrom (by omega), fun _ => readTcp_inside (by omega), fun _ => inside_pure _⟩

theorem readV1_inside : (readV1 last).Inside last b := by
  rw [readV1, inside_ite]
  refine ⟨fun _ => inside_pure _, fun hroom => ?_⟩
  rw [inside_bytesFrom_bind, inside_ite]
  refine ⟨inside_bytesFrom (by omega), fun _ => ?_, fun _ => inside_pure _⟩
  rw [inside_ite]
  refine ⟨fun hthirteen => ?_, fun _ => readProtocol_inside⟩
  rw [inside_bytesFrom_bind, inside_ite]
  exact ⟨inside_bytesFrom hthirteen, fun _ => skipLoop_inside, fun _ => readProtocol_inside⟩

/-! ### Version 2 -/

/-- Where a header of version 2 ends. -/
def v2End (b : ℕ → UInt8) : ℕ := 16 + parseUint16 ((List.range' 14 2).map b) 0

/-- What a header of version 2 gives when it ends at `stop`. -/
def v2Addrs (b : ℕ → UInt8) (stop : ℕ) : Option (Option NgxProxyProtocol) :=
  if b 12 &&& 0x0f ≠ 1 then some none
  else if b 13 &&& 0x0f ≠ 1 then some none
  else if b 13 >>> 4 = 1 then
    if stop < 28 then none else some (some (addrs sockaddrIn 4 ((List.range' 16 12).map b)))
  else if b 13 >>> 4 = 2 then
    if stop < 52 then none else some (some (addrs sockaddrIn6 16 ((List.range' 16 36).map b)))
  else some none

theorem v2Read_val : (ngxProxyProtocolV2Read last).val b =
    if b 12 >>> 4 ≠ 2 ∨ last < v2End b then none else (v2Addrs b (v2End b)).map fun a => (v2End b, a) := by
  have hstop : 16 + parseUint16 ((List.range' 14 2).map b) 0 = v2End b := rfl
  simp only [ngxProxyProtocolV2Read, val_byteAt_bind, val_ite, val_bytesFrom_bind, val_pure, hstop]
  by_cases hversion : b 12 >>> 4 ≠ 2
  · rw [if_pos hversion, if_pos (.inl hversion)]
  · rw [if_neg hversion]
    by_cases hlast : last < v2End b
    · rw [if_pos hlast, if_pos (.inr hlast)]
    · rw [if_neg hlast, if_neg (not_or.mpr ⟨hversion, hlast⟩), v2Addrs]
      split_ifs <;> rfl

theorem v2Addrs_congr {b' : ℕ → UInt8} {stop : ℕ} (hstop : 16 ≤ stop) (hagree : ∀ i < stop, b' i = b i) :
    v2Addrs b' stop = v2Addrs b stop := by
  rw [v2Addrs, v2Addrs, hagree 12 (by omega), hagree 13 (by omega)]
  by_cases h4 : stop < 28
  · by_cases h6 : stop < 52
    · simp only [h4, h6, if_true]
    · omega
  · have hin : (List.range' 16 12).map b' = (List.range' 16 12).map b := map_agree hagree (by omega)
    by_cases h6 : stop < 52
    · simp only [h4, h6, if_true, hin]
    · rw [hin, map_agree hagree (show 16 + 36 ≤ stop by omega)]

theorem v2Read_stops {a : Option NgxProxyProtocol} (h : (ngxProxyProtocolV2Read last).val b = some (p', a)) :
    16 ≤ p' ∧ p' ≤ last ∧ ∀ last' b', p' ≤ last' → (∀ i < p', b' i = b i) →
      (ngxProxyProtocolV2Read last').val b' = some (p', a) := by
  rw [v2Read_val] at h
  split at h
  · cases h
  · rename_i hcheck
    rw [not_or, not_not, not_lt] at hcheck
    obtain ⟨a', haddrs, heq⟩ := Option.map_eq_some_iff.mp h
    obtain ⟨rfl, rfl⟩ := Prod.mk.inj heq
    have hsixteen : 16 ≤ v2End b := Nat.le_add_right 16 _
    refine ⟨hsixteen, hcheck.2, fun last' b' hend hagree => ?_⟩
    have hstop : v2End b' = v2End b := by rw [v2End, map_agree hagree (by omega), ← v2End]
    rw [v2Read_val, hstop, hagree 12 (by omega), if_neg (not_or.mpr ⟨not_not.mpr hcheck.1, Nat.not_lt.mpr hend⟩),
      v2Addrs_congr hsixteen hagree, haddrs]
    rfl

theorem v2Read_inside (hroom : 16 ≤ last) : (ngxProxyProtocolV2Read last).Inside last b := by
  rw [ngxProxyProtocolV2Read]
  simp only [inside_byteAt_bind, inside_ite, inside_bytesFrom_bind, inside_pure, implies_true, true_and, and_true]
  exact ⟨by omega, fun _ => ⟨inside_bytesFrom (by omega), fun hlast _ => ⟨by omega, fun _ =>
    ⟨fun _ hstop => inside_bytesFrom (by omega), fun _ _ hstop => inside_bytesFrom (by omega)⟩⟩⟩⟩

/-! ### Both versions -/

theorem read_val : (ngxProxyProtocolRead last).val b =
    if 16 ≤ last ∧ (List.range' 0 12).map b = signature then (ngxProxyProtocolV2Read last).val b
    else (readV1 last).val b := by
  rw [ngxProxyProtocolRead, val_ite, val_bytesFrom_bind, val_ite]
  by_cases hroom : 16 ≤ last
  · rw [if_pos hroom]
    exact if_congr (and_iff_right hroom).symm rfl rfl
  · rw [if_neg hroom, if_neg fun h => hroom h.1]

theorem read_inside : (ngxProxyProtocolRead last).Inside last b := by
  rw [ngxProxyProtocolRead, inside_ite]
  refine ⟨fun hroom => ?_, fun _ => readV1_inside⟩
  rw [inside_bytesFrom_bind, inside_ite]
  exact ⟨inside_bytesFrom (by omega), fun _ => v2Read_inside hroom, fun _ => readV1_inside⟩

/-- A header that is read up to a position is read in the same way from the bytes up to there, whatever stands behind
them. No byte behind the buffer is read. -/
theorem read_header {k : ℕ} {pp : Option NgxProxyProtocol} (h : (ngxProxyProtocolRead last).val b = some (k, pp)) :
    (ngxProxyProtocolRead last).Inside last b ∧ k ≤ last ∧ ∀ last' b', k ≤ last' → (∀ i < k, b' i = b i) →
      (ngxProxyProtocolRead last').val b' = some (k, pp) := by
  refine ⟨read_inside, ?_⟩
  rw [read_val] at h
  split at h
  · rename_i hv2
    obtain ⟨hle, hend, hsame⟩ := v2Read_stops h
    refine ⟨hend, fun last' b' hend' hagree => ?_⟩
    rw [read_val, map_agree hagree (by omega), if_pos ⟨by omega, hv2.2⟩]
    exact hsame last' b' hend' hagree
  · obtain ⟨hle, hend, hzero, hsame⟩ := readV1_stops h
    refine ⟨hend, fun last' b' hend' hagree => ?_⟩
    have hnot : ¬(16 ≤ last' ∧ (List.range' 0 12).map b' = signature) := fun hv2 =>
      hzero ((hagree 0 (by omega)).symm.trans (List.cons.inj hv2.2).1)
    rw [read_val, if_neg hnot]
    exact hsame last' b' hend' hagree

/-- A header of version 2 with two IPv4 addresses, which is read from its own bytes as from a longer buffer. -/
theorem read_header_inet : ∃ pp, (ngxProxyProtocolRead 28).val (fun i => (signature ++
      [0x21, 0x11, 0, 12, 10, 0, 0, 1, 10, 0, 0, 2, 0x1f, 0x90, 0, 80]).getD i 255) = some (28, some pp) ∧
    pp.srcPort = 8080 ∧ pp.dstPort = 80 := by
  obtain ⟨pp, hread, hports⟩ : ∃ pp, (ngxProxyProtocolRead 31).val (fun i => (signature ++
        [0x21, 0x11, 0, 12, 10, 0, 0, 1, 10, 0, 0, 2, 0x1f, 0x90, 0, 80] ++ [1, 2, 3]).getD i 0) = some (28, some pp) ∧
      pp.srcPort = 8080 ∧ pp.dstPort = 80 := ⟨_, rfl, rfl, rfl⟩
  exact ⟨pp, (read_header hread).2.2 28 _ (Nat.le_refl _) (by decide), hports⟩

end NginxDtls.ProxyProtocol
