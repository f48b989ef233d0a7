import NginxDtls.HuffTables

/-! The decoder of `ngx_http_v2_huff_decode.c`. It accepts codes of symbols and ones behind them that begin a code. -/

namespace NginxDtls.Huff

open PrefixCode BitString

/-- Between two halves of a byte: `*state`, `ending`, and what is written from `*dst` on. -/
structure Decoder where
  state : UInt8
  ending : Bool
  dst : List UInt8

def ngxHttpV2HuffDecodeBits (d : Decoder) (bits : ℕ) : Decoder × Bool :=
  let code := ngxHttpV2HuffDecodeCodes d.state bits
  if code.next = d.state then (d, false)
  else (⟨code.next, code.ending, if code.emit then d.dst ++ [code.sym] else d.dst⟩, true)

/-- The loop over the source. The second component is false for `NGX_ERROR`. -/
def decodeLoop : Decoder → List UInt8 → Decoder × Bool
  | d, [] => (d, true)
  | d, ch :: src =>
    let high := ngxHttpV2HuffDecodeBits d (ch.toNat >>> 4)
    if high.2 then
      let low := ngxHttpV2HuffDecodeBits high.1 (ch.toNat % 16)
      if low.2 then decodeLoop low.1 src else low
    else high

def ngxHttpV2HuffDecode (state : UInt8) (src dst : List UInt8) (last : Bool) : Decoder × Bool :=
  let decoded := decodeLoop ⟨state, true, dst⟩ src
  if decoded.2 && last then
    if decoded.1.ending then ({ decoded.1 with state := 0 }, true) else (decoded.1, false)
  else decoded

/-- A field that comes in pieces, each decoded from the state behind the one before. -/
def decodePieces (state : UInt8) (dst : List UInt8) (final : List UInt8) : List (List UInt8) → Decoder × Bool
  | [] => ngxHttpV2HuffDecode state final dst true
  | src :: pieces =>
    let decoded := ngxHttpV2HuffDecode state src dst false
    if decoded.2 then decodePieces decoded.1.state decoded.1.dst final pieces else decoded

variable {d : Decoder} {p q c : List Bool} {as : List UInt8}

/-- Half a byte. -/
theorem decodeBits_eq (hp : At d.state p) (hc : c.length = 4) :
    match read huffTree p c with
    | none => ngxHttpV2HuffDecodeBits d (value c) = (d, false)
    | some (q, as) => ∃ state, At state q ∧ ngxHttpV2HuffDecodeBits d (value c) = (⟨state, q.all id, d.dst ++ as⟩, true) := by
  obtain ⟨zero, one, hfollow⟩ := hp
  have hinner : (huffTree.follow p).Inner := by
    rw [hfollow]
    trivial
  have hvalue : value c < 16 := by
    have hlt := value_lt c
    rw [hc] at hlt
    exact hlt
  have hbits : bitsOf 4 (value c) = c := by
    rw [← hc]
    exact bitsOf_value c
  have hnode := tables_ok.2.2 _ (CodeTree.mem_inners [] hinner)
  rw [List.nil_append, hfollow, nodeOk, Bool.and_eq_true, UInt8.ofNat_toNat] at hnode
  have hentry := List.all_eq_true.mp hnode.2 (value c) (List.mem_range.mpr hvalue)
  rw [hbits, ← hfollow, entryOk, walk_eq_read] at hentry
  rw [ngxHttpV2HuffDecodeBits]
  cases hread : read huffTree p c with
  | none =>
      rw [hread] at hentry
      exact if_pos (eq_of_beq hentry)
  | some r =>
      obtain ⟨q, as⟩ := r
      rw [hread] at hentry
      simp only [Option.map_some] at hentry
      cases hq : huffTree.follow q with
      | empty | leaf =>
          rw [hq] at hentry
          cases hentry
      | node n zero' one' =>
          rw [hq] at hentry
          simp only [Bool.and_eq_true, Bool.not_eq_true', beq_eq_false_iff_ne, beq_iff_eq] at hentry
          obtain ⟨⟨⟨hne, rfl⟩, rfl⟩, hending⟩ := hentry
          refine ⟨_, ⟨zero', one', hq⟩, ?_⟩
          simp only [if_neg hne, hending]
          split_ifs <;> simp

theorem codes_length (as : List UInt8) : 5 * as.length ≤ (as.flatMap huffCode).length := by
  induction as with
  | nil => exact le_refl 0
  | cons a as ih =>
      have ha := (symbol_ok a).2
      rw [List.flatMap_cons, List.length_append, List.length_cons]
      omega

theorem halves_value (ch : UInt8) :
    value (bitsOf 4 (ch.toNat >>> 4)) = ch.toNat >>> 4 ∧ value (bitsOf 4 (ch.toNat % 16)) = ch.toNat % 16 := by
  have hlt := ch.toNat_lt
  rw [value_bitsOf, value_bitsOf, Nat.shiftRight_eq_div_pow]
  omega

/-- What half a byte adds: a symbol has at least five bits. -/
theorem decodeBits_dst (hp : At d.state p) (hc : c.length = 4) : ∃ q, At (ngxHttpV2HuffDecodeBits d (value c)).1.state q ∧
    5 * (ngxHttpV2HuffDecodeBits d (value c)).1.dst.length + q.length ≤ 5 * d.dst.length + p.length + 4 := by
  have hstep := decodeBits_eq hp hc
  cases hread : read huffTree p c with
  | none =>
      rw [hread] at hstep
      have hd : ngxHttpV2HuffDecodeBits d (value c) = (d, false) := hstep
      rw [hd]
      exact ⟨p, hp, Nat.le_add_right _ 4⟩
  | some r =>
      obtain ⟨q, as⟩ := r
      rw [hread] at hstep
      obtain ⟨state, hq, hd⟩ := hstep
      have hsound := congrArg List.length (read_sound huff_codes hp.inner hread).1
      have hlen := codes_length as
      rw [List.length_append, List.length_append, hc] at hsound
      refine ⟨q, by rw [hd]; exact hq, ?_⟩
      rw [hd, List.length_append]
      omega

/-- A byte. -/
theorem decodeLoop_cons (hp : At d.state p) (ch : UInt8) (src : List UInt8) :
    match read huffTree p (byteBits ch) with
    | none => (decodeLoop d (ch :: src)).2 = false
    | some (q, as) => ∃ state, At state q ∧ decodeLoop d (ch :: src) = decodeLoop ⟨state, q.all id, d.dst ++ as⟩ src := by
  obtain ⟨hhigh, hlow⟩ := halves_value ch
  have hstep := decodeBits_eq hp (length_bitsOf 4 (ch.toNat >>> 4))
  rw [hhigh] at hstep
  rw [byteBits_halves, read_append, decodeLoop]
  cases hread : read huffTree p (bitsOf 4 (ch.toNat >>> 4)) with
  | none =>
      rw [hread] at hstep
      have hd : ngxHttpV2HuffDecodeBits d (ch.toNat >>> 4) = (d, false) := hstep
      rw [hd]
      rfl
  | some r =>
      obtain ⟨q, as⟩ := r
      rw [hread] at hstep
      obtain ⟨state, hq, hd⟩ := hstep
      have hstep' := decodeBits_eq (d := ⟨state, q.all id, d.dst ++ as⟩) hq (length_bitsOf 4 (ch.toNat % 16))
      rw [hlow] at hstep'
      rw [hd, Option.bind_some, if_pos rfl]
      cases hread' : read huffTree q (bitsOf 4 (ch.toNat % 16)) with
      | none =>
          rw [hread'] at hstep'
          have hd' : ngxHttpV2HuffDecodeBits ⟨state, q.all id, d.dst ++ as⟩ (ch.toNat % 16) =
            (⟨state, q.all id, d.dst ++ as⟩, false) := hstep'
          rw [hd']
          rfl
      | some r' =>
          obtain ⟨q', as'⟩ := r'
          rw [hread'] at hstep'
          obtain ⟨state', hq', hd'⟩ := hstep'
          refine ⟨state', hq', ?_⟩
          rw [hd', if_pos rfl, List.append_assoc]

/-- The loop reads the bits of its source. -/
theorem decodeLoop_eq (hp : At d.state p) (src : List UInt8) :
    match read huffTree p (bytesBits src) with
    | none => (decodeLoop d src).2 = false
    | some (q, as) => ∃ state ending, At state q ∧ decodeLoop d src = (⟨state, ending, d.dst ++ as⟩, true) ∧
        (src ≠ [] ∨ d.ending = p.all id → ending = q.all id) := by
  induction src generalizing d p with
  | nil => exact ⟨d.state, d.ending, hp, by rw [List.append_nil]; rfl, fun h => h.resolve_left fun hne => hne rfl⟩
  | cons ch src ih =>
      have hbits : bytesBits (ch :: src) = byteBits ch ++ bytesBits src := List.flatMap_cons
      have hbyte := decodeLoop_cons hp ch src
      rw [hbits, read_append]
      cases hread : read huffTree p (byteBits ch) with
      | none =>
          rw [hread] at hbyte
          exact hbyte
      | some r =>
          obtain ⟨q, as⟩ := r
          rw [hread] at hbyte
          obtain ⟨state, hq, hd⟩ := hbyte
          have htail := ih (d := ⟨state, q.all id, d.dst ++ as⟩) hq
          rw [hd, Option.bind_some]
          cases hread' : read huffTree q (bytesBits src) with
          | none =>
              rw [hread'] at htail
              exact htail
          | some r' =>
              rw [hread'] at htail
              obtain ⟨state', ending, hq', hd', hending⟩ := htail
              exact ⟨state', ending, hq', by rw [hd', List.append_assoc], fun _ => hending (.inr rfl)⟩

/-- The loop writes no more than it has read bits for, also where it fails. -/
theorem decodeLoop_dst (hp : At d.state p) (src : List UInt8) : ∃ q, At (decodeLoop d src).1.state q ∧
    5 * (decodeLoop d src).1.dst.length + q.length ≤ 5 * d.dst.length + p.length + 8 * src.length := by
  induction src generalizing d p with
  | nil => exact ⟨p, hp, le_refl _⟩
  | cons ch src ih =>
      obtain ⟨hhigh, hlow⟩ := halves_value ch
      obtain ⟨q, hq, hdst⟩ := decodeBits_dst hp (length_bitsOf 4 (ch.toNat >>> 4))
      rw [hhigh] at hq hdst
      obtain ⟨q', hq', hdst'⟩ := decodeBits_dst hq (length_bitsOf 4 (ch.toNat % 16))
      rw [hlow] at hq' hdst'
      simp only [decodeLoop, List.length_cons]
      split_ifs
      · obtain ⟨q'', hq'', hdst''⟩ := ih hq'
        exact ⟨q'', hq'', by omega⟩
      · exact ⟨q', hq', by omega⟩
      · exact ⟨q, hq, by omega⟩

/-- What is left of the bits at the end of a field is ones. -/
theorem ones_iff (q : List Bool) : (huffTree.follow q).Inner ∧ q.all id = true ↔ ∃ k < 30, q = List.replicate k true := by
  constructor
  · rintro ⟨hinner, hones⟩
    have hq : q = List.replicate q.length true :=
      List.eq_replicate_iff.mpr ⟨rfl, fun b hb => List.all_eq_true.mp hones b hb⟩
    refine ⟨q.length, ?_, hq⟩
    by_contra hge
    have hempty : huffTree.follow (List.replicate 30 true) = .empty := by decide +kernel
    rw [hq, ← Nat.add_sub_of_le (not_lt.mp hge), List.replicate_add, CodeTree.follow_append, hempty] at hinner
    cases hrest : List.replicate (q.length - 30) true <;> rw [hrest] at hinner <;> exact hinner
  · rintro ⟨k, hk, rfl⟩
    have hall : ∀ k < 30, (huffTree.follow (List.replicate k true)).Inner := by decide +kernel
    exact ⟨hall k hk, by simp⟩

/-- A field in pieces, from a state in the middle of it on. -/
theorem decodePieces_eq {state : UInt8} (hp : At state p) (dst final : List UInt8) (pieces : List (List UInt8))
    (hfinal : final = [] → pieces = [] ∧ p = []) :
    match read huffTree p (bytesBits (pieces.flatten ++ final)) with
    | none => (decodePieces state dst final pieces).2 = false
    | some (q, as) => if q.all id then decodePieces state dst final pieces = (⟨0, true, dst ++ as⟩, true)
        else (decodePieces state dst final pieces).2 = false := by
  induction pieces generalizing state p dst with
  | nil =>
      have hloop := decodeLoop_eq (d := ⟨state, true, dst⟩) hp final
      rw [List.flatten_nil, List.nil_append, decodePieces, ngxHttpV2HuffDecode]
      cases hread : read huffTree p (bytesBits final) with
      | none =>
          rw [hread] at hloop
          have hd : (decodeLoop ⟨state, true, dst⟩ final).2 = false := hloop
          simp [hd]
      | some r =>
          obtain ⟨q, as⟩ := r
          rw [hread] at hloop
          obtain ⟨state', ending, hq, hd, hending⟩ := hloop
          have hones : ending = q.all id := by
            refine hending ?_
            by_cases hnil : final = []
            · exact .inr (by rw [(hfinal hnil).2]; rfl)
            · exact .inl hnil
          rw [hd, hones]
          cases hall : q.all id <;> simp [hall]
  | cons src pieces ih =>
      have hne : final ≠ [] := fun hnil => absurd (hfinal hnil).1 (List.cons_ne_nil _ _)
      have hloop := decodeLoop_eq (d := ⟨state, true, dst⟩) hp src
      rw [List.flatten_cons, List.append_assoc, bytesBits_append, read_append, decodePieces, ngxHttpV2HuffDecode]
      cases hread : read huffTree p (bytesBits src) with
      | none =>
          rw [hread] at hloop
          have hd : (decodeLoop ⟨state, true, dst⟩ src).2 = false := hloop
          simp [hd]
      | some r =>
          obtain ⟨q, as⟩ := r
          rw [hread] at hloop
          obtain ⟨state', ending, hq, hd, -⟩ := hloop
          have htail := ih hq (dst ++ as) fun hnil => absurd hnil hne
          rw [hd, Option.bind_some]
          simp only [Bool.and_false, Bool.false_eq_true, if_false, if_true]
          cases hread' : read huffTree q (bytesBits (pieces.flatten ++ final)) with
          | none =>
              rw [hread'] at htail
              exact htail
          | some r' =>
              rw [hread'] at htail
              simp only [List.append_assoc] at htail
              exact htail

theorem decodePieces_dst {state : UInt8} (hp : At state p) (dst final : List UInt8) (pieces : List (List UInt8)) :
    5 * (decodePieces state dst final pieces).1.dst.length ≤
      5 * dst.length + p.length + 8 * (pieces.flatten ++ final).length := by
  induction pieces generalizing state p dst with
  | nil =>
      obtain ⟨q, -, hdst⟩ := decodeLoop_dst (d := ⟨state, true, dst⟩) hp final
      simp only [decodePieces, ngxHttpV2HuffDecode, List.flatten_nil, List.nil_append] at hdst ⊢
      split_ifs <;> first | omega | (dsimp only; omega)
  | cons src pieces ih =>
      obtain ⟨q, hq, hdst⟩ := decodeLoop_dst (d := ⟨state, true, dst⟩) hp src
      have htail := ih hq (decodeLoop ⟨state, true, dst⟩ src).1.dst
      simp only [decodePieces, ngxHttpV2HuffDecode, Bool.and_false, Bool.false_eq_true, if_false, List.flatten_cons,
        List.length_append] at hdst htail ⊢
      split_ifs <;> omega

/-- **What the decoder accepts.** A field that comes in any pieces, of which the last one is not empty unless the field is, is
decoded to a string exactly if its bits are the codes of the string and up to 29 ones. The state is then that for the next
field. Whether it is accepted or not, no more is written than `len * 8 / 5` bytes, which is what is allocated for it. -/
theorem huff_decode (pieces : List (List UInt8)) (final : List UInt8) (hfinal : final = [] → pieces = []) :
    (∀ out, decodePieces 0 [] final pieces = (⟨0, true, out⟩, true) ↔
      ∃ k < 30, bytesBits (pieces.flatten ++ final) = out.flatMap huffCode ++ List.replicate k true) ∧
    ((decodePieces 0 [] final pieces).2 = true → (decodePieces 0 [] final pieces).1.state = 0) ∧
    (decodePieces 0 [] final pieces).1.dst.length ≤ (pieces.flatten ++ final).length * 8 / 5 := by
  have hpieces := decodePieces_eq at_root [] final pieces fun hnil => ⟨hfinal hnil, rfl⟩
  have hdst := decodePieces_dst at_root [] final pieces
  simp only [List.length_nil] at hdst
  have hlen : (decodePieces 0 [] final pieces).1.dst.length ≤ (pieces.flatten ++ final).length * 8 / 5 := by omega
  cases hread : read huffTree [] (bytesBits (pieces.flatten ++ final)) with
  | none =>
      rw [hread] at hpieces
      have hd : (decodePieces 0 [] final pieces).2 = false := hpieces
      refine ⟨fun out => ⟨fun hout => ?_, fun ⟨k, hk, hbits⟩ => ?_⟩, fun htrue => ?_, hlen⟩
      · rw [hout] at hd
        cases hd
      · have hsome := (read_eq_some_iff huff_codes).mpr ⟨hbits, ((ones_iff _).mpr ⟨k, hk, rfl⟩).1⟩
        rw [hread] at hsome
        cases hsome
      · rw [hd] at htrue
        cases htrue
  | some r =>
      obtain ⟨q, as⟩ := r
      have hinner := ((read_eq_some_iff huff_codes).mp hread).2
      rw [hread] at hpieces
      have hcases : if q.all id then decodePieces 0 [] final pieces = (⟨0, true, [] ++ as⟩, true)
          else (decodePieces 0 [] final pieces).2 = false := hpieces
      have hiff : ∀ out, (∃ k < 30, bytesBits (pieces.flatten ++ final) = out.flatMap huffCode ++ List.replicate k true) ↔
          q.all id = true ∧ out = as := by
        intro out
        constructor
        · rintro ⟨k, hk, hbits⟩
          have hsome := (read_eq_some_iff huff_codes).mpr ⟨hbits, ((ones_iff _).mpr ⟨k, hk, rfl⟩).1⟩
          rw [hread] at hsome
          obtain ⟨rfl, rfl⟩ := Prod.mk.inj (Option.some.inj hsome)
          exact ⟨((ones_iff _).mpr ⟨k, hk, rfl⟩).2, rfl⟩
        · rintro ⟨hall, rfl⟩
          obtain ⟨k, hk, rfl⟩ := (ones_iff q).mp ⟨hinner, hall⟩
          exact ⟨k, hk, ((read_eq_some_iff huff_codes).mp hread).1⟩
      by_cases hall : q.all id = true
      · rw [if_pos hall] at hcases
        refine ⟨fun out => ?_, fun _ => by rw [hcases], hlen⟩
        rw [hiff, hcases, and_iff_right hall]
        exact ⟨fun h => by simpa using (congrArg (fun r => r.1.dst) h).symm, fun h => by rw [h]; rfl⟩
      · rw [if_neg hall] at hcases
        refine ⟨fun out => ?_, fun htrue => ?_, hlen⟩
        · rw [hiff]
          refine ⟨fun hout => ?_, fun h => absurd h.1 hall⟩
          rw [hout] at hcases
          cases hcases
        · rw [hcases] at htrue
          cases htrue

/-- The word "nginx", cut in the middle of a code. -/
theorem huff_decode_nginx :
    decodePieces 0 [] [0x63, 0x55, 0xe7] [[0xaa]] = (⟨0, true, [110, 103, 105, 110, 120]⟩, true) :=
  ((huff_decode [[0xaa]] [0x63, 0x55, 0xe7] (by decide)).1 _).mpr ⟨2, by decide, by decide +kernel⟩

end NginxDtls.Huff
