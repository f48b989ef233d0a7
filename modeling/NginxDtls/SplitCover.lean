import NginxDtls.SplitClients

/-! Which `split_clients` blocks are accepted, and which keys get a value. The total of the percentages is a word of 32
bits, and the last threshold of a block without `*` leaves at least the greatest hash without a value. -/

namespace NginxDtls.SplitClients

/-! ### Blocks -/

/-- What the entries are read as. -/
def Parsed (entries : List Entry) (ns : List ℕ) : Prop :=
  List.Forall₂ (fun entry n => entryHundredths entry.text = some n) entries ns

/-- The parts of entries and their hundredths. -/
def partsOf (entries : List Entry) (ns : List ℕ) : List Part :=
  List.zipWith (fun entry n => ⟨UInt32.ofNat n, entry.value⟩) entries ns

theorem parseParts_of_parsed {entries : List Entry} {ns : List ℕ} (h : Parsed entries ns) :
    parseParts entries = some (partsOf entries ns) := by
  induction h with
  | nil => rfl
  | cons hentry _ ih =>
      rw [parseParts, ngxStreamSplitClients, hentry, ih]
      rfl

theorem parsed_of_parseParts {entries : List Entry} {parts : List Part} (h : parseParts entries = some parts) :
    ∃ ns, Parsed entries ns := by
  induction entries generalizing parts with
  | nil => exact ⟨[], .nil⟩
  | cons entry entries ih =>
      rw [parseParts] at h
      cases hentry : entryHundredths entry.text with
      | none =>
          rw [ngxStreamSplitClients, hentry] at h
          cases h
      | some n =>
          rw [ngxStreamSplitClients, hentry] at h
          cases hrest : parseParts entries with
          | none =>
              rw [hrest] at h
              cases h
          | some rest =>
              obtain ⟨ns, hns⟩ := ih hrest
              exact ⟨n :: ns, .cons hentry hns⟩

theorem values_partsOf {entries : List Entry} {ns : List ℕ} (h : Parsed entries ns) :
    (partsOf entries ns).map Part.value = entries.map Entry.value := by
  induction h with
  | nil => rfl
  | cons _ _ ih =>
      rw [List.map_cons, ← ih]
      rfl

theorem values_scaleParts {parts scaled : List Part} {sum last : UInt32} (h : scaleParts parts sum last = some scaled) :
    scaled.map Part.value = parts.map Part.value := by
  induction parts generalizing sum last scaled with
  | nil =>
      cases h
      rfl
  | cons part parts ih =>
      rw [scaleParts] at h
      dsimp only at h
      split_ifs at h
      · obtain ⟨rest, hrest, rfl⟩ := Option.map_eq_some_iff.mp h
        rw [List.map_cons, List.map_cons, ih hrest]
      · obtain ⟨rest, hrest, rfl⟩ := Option.map_eq_some_iff.mp h
        rw [List.map_cons, List.map_cons, ih hrest]

/-- A part without a threshold has a value for every hash. -/
theorem assign_of_zero {hash : UInt32} {parts : List Part} (h : ∃ part ∈ parts, part.percent = 0) :
    ∃ part ∈ parts, assign hash parts = some part.value := by
  induction parts with
  | nil =>
      obtain ⟨part, hpart, -⟩ := h
      exact absurd hpart List.not_mem_nil
  | cons part parts ih =>
      rw [assign]
      split
      · exact ⟨part, List.mem_cons_self, rfl⟩
      · rename_i hmiss
        obtain ⟨zero, hzero, hpercent⟩ := h
        rcases List.mem_cons.mp hzero with rfl | hzero
        · exact absurd (Or.inr hpercent) hmiss
        · obtain ⟨hit, hmem, hassign⟩ := ih ⟨zero, hzero, hpercent⟩
          exact ⟨hit, List.mem_cons_of_mem _ hmem, hassign⟩

/-- The greatest hash is below no threshold. -/
theorem assign_greatest {parts : List Part} (h : ∀ part ∈ parts, part.percent ≠ 0) : assign 0xffffffff parts = none := by
  induction parts with
  | nil => rfl
  | cons part parts ih =>
      obtain ⟨hpart, hparts⟩ := List.forall_mem_cons.mp h
      have hmax : ¬(0xffffffff : UInt32) < part.percent := by
        rw [UInt32.not_lt, UInt32.le_iff_toNat_le]
        exact Nat.le_of_lt_succ part.percent.toNat_lt
      rw [assign, if_neg (not_or.mpr ⟨hmax, hpart⟩)]
      exact ih hparts

theorem ten_thousand : (10000 : UInt32).toNat = 10000 := by decide

/-! ### Proper blocks -/

/-- The thresholds keep pace with the total. -/
theorem threshold_le {s p l : ℕ} (hlast : l * 10000 ≤ s * 0xffffffff) (hsum : s + p ≤ 10000) :
    p * 0xffffffff / 10000 < 2 ^ 32 ∧ l + p * 0xffffffff / 10000 < 2 ^ 32 ∧
      (l + p * 0xffffffff / 10000) * 10000 ≤ (s + p) * 0xffffffff := by
  omega

/-- Percentages that leave the total at 100% or below it get thresholds other than zero. -/
theorem scaleParts_percents {parts : List Part} {sum last : UInt32} (hparts : ∀ part ∈ parts, part.percent ≠ 0)
    (hsum : sum.toNat + (parts.map fun part => part.percent.toNat).sum ≤ 10000)
    (hlast : last.toNat * 10000 ≤ sum.toNat * 0xffffffff) :
    ∃ scaled, (∀ part ∈ scaled, part.percent ≠ 0) ∧ scaleParts parts sum last = some scaled ∧
      ∀ value, scaleParts (parts ++ [⟨0, value⟩]) sum last = some (scaled ++ [⟨0, value⟩]) := by
  induction parts generalizing sum last with
  | nil => exact ⟨[], fun part hpart => absurd hpart List.not_mem_nil, rfl, fun value => rfl⟩
  | cons part parts ih =>
      obtain ⟨hpart, hrest⟩ := List.forall_mem_cons.mp hparts
      have hpos : 0 < part.percent.toNat := Nat.pos_of_ne_zero fun hzero => hpart (UInt32.toNat_inj.mp hzero)
      rw [List.map_cons, List.sum_cons] at hsum
      have hadd : (sum + part.percent).toNat = sum.toNat + part.percent.toNat := by
        rw [UInt32.toNat_add, Nat.mod_eq_of_lt (by omega)]
      obtain ⟨hterm, hnext, hpace⟩ := threshold_le hlast (show sum.toNat + part.percent.toNat ≤ 10000 by omega)
      have hstep : 0 < part.percent.toNat * 0xffffffff / 10000 := by omega
      generalize hthreshold : last + UInt32.ofNat (part.percent.toNat * 0xffffffff / 10000) = next
      have hnextNat : next.toNat = last.toNat + part.percent.toNat * 0xffffffff / 10000 := by
        rw [← hthreshold, UInt32.toNat_add, UInt32.toNat_ofNat', Nat.mod_eq_of_lt hterm, Nat.mod_eq_of_lt hnext]
      have hfits : ¬sum + part.percent > 10000 := by
        rw [gt_iff_lt, UInt32.lt_iff_toNat_lt, hadd, ten_thousand]
        omega
      have hnonzero : next ≠ 0 := by
        rintro rfl
        rw [show (0 : UInt32).toNat = 0 from rfl] at hnextNat
        exact absurd hnextNat.symm (Nat.ne_of_gt (Nat.lt_of_lt_of_le hstep (Nat.le_add_left _ _)))
      obtain ⟨scaled, hscaled, hparts', hstar⟩ := @ih (sum + part.percent) next hrest
        (by rw [hadd, Nat.add_assoc]; exact hsum) (by rw [hadd, hnextNat]; exact hpace)
      refine ⟨{ part with percent := next } :: scaled, List.forall_mem_cons.mpr ⟨hnonzero, hscaled⟩, ?_, fun value => ?_⟩
      · rw [scaleParts, if_pos hpart]
        dsimp only
        rw [if_neg hfits, if_pos hpart, hthreshold, hparts']
        rfl
      · rw [List.cons_append, scaleParts, if_pos hpart]
        dsimp only
        rw [if_neg hfits, if_pos hpart, hthreshold, hstar]
        rfl

/-- The entries of percentages up to 100% are read as they are written. -/
theorem parsed_of_written {entries : List Entry} {percents : List ℕ} (h : BlockWritten entries (percents.map some))
    (hsum : percents.sum ≤ 10000) :
    Parsed entries percents ∧ (∀ part ∈ partsOf entries percents, part.percent ≠ 0) ∧
      ((partsOf entries percents).map fun part => part.percent.toNat).sum = percents.sum := by
  induction percents generalizing entries with
  | nil =>
      cases h
      exact ⟨.nil, fun part hpart => absurd hpart List.not_mem_nil, rfl⟩
  | cons n percents ih =>
      rw [List.sum_cons] at hsum
      cases h with
      | @cons entry _ entries _ hentry hrest =>
          obtain ⟨hparsed, hnonzero, htotal⟩ := ih hrest (by omega)
          have hread := entryHundredths_of_written hentry (by omega)
          obtain ⟨-, -, -, hpos⟩ := hentry
          have hnat : (UInt32.ofNat n).toNat = n := by
            rw [UInt32.toNat_ofNat', Nat.mod_eq_of_lt (by omega)]
          refine ⟨.cons hread hparsed, List.forall_mem_cons.mpr ⟨fun hzero => ?_, hnonzero⟩, ?_⟩
          · have hz := congrArg UInt32.toNat hzero
            dsimp only at hz
            rw [hnat] at hz
            exact absurd hz (Nat.pos_iff_ne_zero.mp hpos)
          · rw [List.sum_cons, ← htotal]
            show (UInt32.ofNat n).toNat + _ = _
            rw [hnat]
            rfl

/-- A final `*` is read as zero. -/
theorem written_star {entries : List Entry} {percents : List ℕ}
    (h : BlockWritten entries (percents.map some ++ [none])) :
    ∃ init value, entries = init ++ [⟨[star], value⟩] ∧ BlockWritten init (percents.map some) := by
  induction percents generalizing entries with
  | nil =>
      cases h with
      | @cons entry _ _ _ hstar hnil =>
          cases hnil
          obtain ⟨text, value⟩ := entry
          obtain rfl : text = [star] := hstar
          exact ⟨[], value, rfl, .nil⟩
  | cons n percents ih =>
      cases h with
      | @cons entry _ _ _ hentry hrest =>
          obtain ⟨init, value, rfl, hinit⟩ := ih hrest
          exact ⟨entry :: init, value, rfl, .cons hentry hinit⟩

theorem parsed_star {init : List Entry} {percents : List ℕ} (h : Parsed init percents) (value : List UInt8) :
    Parsed (init ++ [⟨[star], value⟩]) (percents ++ [0]) ∧
      partsOf (init ++ [⟨[star], value⟩]) (percents ++ [0]) = partsOf init percents ++ [⟨0, value⟩] := by
  induction h with
  | nil => exact ⟨.cons rfl .nil, rfl⟩
  | cons hentry _ ih => exact ⟨.cons hentry ih.1, congrArg _ ih.2⟩

/-- What percentages become: thresholds, and behind them the value of `*` if there is one. -/
theorem block_of_percents {entries : List Entry} {percents : List ℕ} (h : BlockWritten entries (percents.map some))
    (hsum : percents.sum ≤ 10000) :
    ∃ scaled, (∀ part ∈ scaled, part.percent ≠ 0) ∧ ngxConfSplitClientsBlock entries = some scaled ∧
      ∀ value, ngxConfSplitClientsBlock (entries ++ [⟨[star], value⟩]) = some (scaled ++ [⟨0, value⟩]) := by
  obtain ⟨hparsed, hnonzero, htotal⟩ := parsed_of_written h hsum
  obtain ⟨scaled, hscaled, hparts, hstar⟩ := @scaleParts_percents (partsOf entries percents) 0 0 hnonzero
    (by rw [htotal]; exact (Nat.zero_add _).trans_le hsum) (Nat.zero_le _)
  refine ⟨scaled, hscaled, ?_, fun value => ?_⟩
  · rw [ngxConfSplitClientsBlock, parseParts_of_parsed hparsed]
    exact hparts
  · obtain ⟨hparsed', hparts'⟩ := parsed_star hparsed value
    rw [ngxConfSplitClientsBlock, parseParts_of_parsed hparsed', hparts']
    exact hstar value

theorem proper_accepted {entries : List Entry} (h : Proper entries) : ∃ parts, ngxConfSplitClientsBlock entries = some parts := by
  obtain ⟨total, htotal, percents, hwritten | hwritten, rfl⟩ := h
  · obtain ⟨scaled, -, hblock, -⟩ := block_of_percents hwritten htotal
    exact ⟨scaled, hblock⟩
  · obtain ⟨init, value, rfl, hinit⟩ := written_star hwritten
    obtain ⟨scaled, -, -, hblock⟩ := block_of_percents hinit htotal
    exact ⟨_, hblock value⟩

/-- The value that is assigned is one of the entries'. -/
theorem value_mem {entries : List Entry} {parts : List Part} (h : ngxConfSplitClientsBlock entries = some parts) :
    ∀ part ∈ parts, ∃ entry ∈ entries, part.value = entry.value := by
  intro part hpart
  rw [ngxConfSplitClientsBlock] at h
  cases hread : parseParts entries with
  | none =>
      rw [hread] at h
      cases h
  | some read =>
      rw [hread] at h
      obtain ⟨ns, hns⟩ := parsed_of_parseParts hread
      rw [parseParts_of_parsed hns] at hread
      obtain rfl := Option.some.inj hread
      have hvalues := (values_scaleParts h).trans (values_partsOf hns)
      have hmem : part.value ∈ entries.map Entry.value := hvalues ▸ List.mem_map_of_mem hpart
      obtain ⟨entry, hentry, heq⟩ := List.mem_map.mp hmem
      exact ⟨entry, hentry, heq.symm⟩

/-! ### Totals of 32 bits -/

/-- A total of consecutive words is greater than 100%. It begins with the block, or with 100% behind a word that is zero. -/
def Exceeds (ws : List ℕ) : Prop :=
  (∃ seg rest, ws = seg ++ rest ∧ 0 ∉ seg ∧ 10000 < seg.sum % 2 ^ 32) ∨
    ∃ pre seg rest, ws = pre ++ 0 :: (seg ++ rest) ∧ 0 ∉ seg ∧ 10000 < (10000 + seg.sum) % 2 ^ 32

/-- The same, with a first total that begins with `s`. -/
def ExceedsFrom (s : ℕ) (ws : List ℕ) : Prop :=
  (∃ seg rest, ws = seg ++ rest ∧ 0 ∉ seg ∧ 10000 < (s + seg.sum) % 2 ^ 32) ∨
    ∃ pre seg rest, ws = pre ++ 0 :: (seg ++ rest) ∧ 0 ∉ seg ∧ 10000 < (10000 + seg.sum) % 2 ^ 32

theorem not_exceedsFrom_nil {s : ℕ} (hs : s ≤ 10000) : ¬ExceedsFrom s [] := by
  rintro (⟨seg, rest, hws, -, hlarge⟩ | ⟨pre, seg, rest, hws, -, -⟩)
  · obtain ⟨rfl, -⟩ := List.append_eq_nil_iff.mp hws.symm
    rw [List.sum_nil, Nat.add_zero, Nat.mod_eq_of_lt (by omega)] at hlarge
    omega
  · simp at hws

theorem exceedsFrom_zero {s : ℕ} {ws : List ℕ} (hs : s ≤ 10000) : ExceedsFrom s (0 :: ws) ↔ ExceedsFrom 10000 ws := by
  constructor
  · rintro (⟨seg, rest, hws, hzero, hlarge⟩ | ⟨pre, seg, rest, hws, hzero, hlarge⟩)
    · cases seg with
      | nil =>
          rw [List.sum_nil, Nat.add_zero, Nat.mod_eq_of_lt (by omega)] at hlarge
          omega
      | cons w seg =>
          obtain ⟨rfl, -⟩ := List.cons.inj hws
          exact absurd List.mem_cons_self hzero
    · cases pre with
      | nil => exact Or.inl ⟨seg, rest, (List.cons.inj hws).2, hzero, hlarge⟩
      | cons w pre => exact Or.inr ⟨pre, seg, rest, (List.cons.inj hws).2, hzero, hlarge⟩
  · rintro (⟨seg, rest, rfl, hzero, hlarge⟩ | ⟨pre, seg, rest, rfl, hzero, hlarge⟩)
    · exact Or.inr ⟨[], seg, rest, rfl, hzero, hlarge⟩
    · exact Or.inr ⟨0 :: pre, seg, rest, rfl, hzero, hlarge⟩

theorem exceedsFrom_cons {s w : ℕ} {ws : List ℕ} (hs : s ≤ 10000) (hw : w ≠ 0) :
    ExceedsFrom s (w :: ws) ↔ 10000 < (s + w) % 2 ^ 32 ∨ ExceedsFrom ((s + w) % 2 ^ 32) ws := by
  have hsum : ∀ seg : List ℕ, (s + (w :: seg).sum) % 2 ^ 32 = ((s + w) % 2 ^ 32 + seg.sum) % 2 ^ 32 := fun seg => by
    rw [List.sum_cons, ← Nat.add_assoc, Nat.mod_add_mod]
  constructor
  · rintro (⟨seg, rest, hws, hzero, hlarge⟩ | ⟨pre, seg, rest, hws, hzero, hlarge⟩)
    · cases seg with
      | nil =>
          rw [List.sum_nil, Nat.add_zero, Nat.mod_eq_of_lt (by omega)] at hlarge
          omega
      | cons v seg =>
          obtain ⟨rfl, rfl⟩ := List.cons.inj hws
          rw [hsum] at hlarge
          exact Or.inr (Or.inl ⟨seg, rest, rfl, fun h => hzero (List.mem_cons_of_mem _ h), hlarge⟩)
    · cases pre with
      | nil => exact absurd (List.cons.inj hws).1 hw
      | cons v pre => exact Or.inr (Or.inr ⟨pre, seg, rest, (List.cons.inj hws).2, hzero, hlarge⟩)
  · rintro (hlarge | ⟨seg, rest, rfl, hzero, hlarge⟩ | ⟨pre, seg, rest, rfl, hzero, hlarge⟩)
    · refine Or.inl ⟨[w], ws, rfl, fun h => hw (List.mem_singleton.mp h).symm, ?_⟩
      rw [List.sum_singleton]
      exact hlarge
    · refine Or.inl ⟨w :: seg, rest, rfl, fun h => ?_, by rw [hsum]; exact hlarge⟩
      rcases List.mem_cons.mp h with h | h
      · exact hw h.symm
      · exact hzero h
    · exact Or.inr ⟨w :: pre, seg, rest, rfl, hzero, hlarge⟩

/-- The loop rejects the blocks with a total that exceeds 100%. -/
theorem scaleParts_none_iff {parts : List Part} {sum last : UInt32} (hsum : sum.toNat ≤ 10000) :
    scaleParts parts sum last = none ↔ ExceedsFrom sum.toNat (parts.map fun part => part.percent.toNat) := by
  induction parts generalizing sum last with
  | nil => exact iff_of_false (fun h => by cases h) (not_exceedsFrom_nil hsum)
  | cons part parts ih =>
      rw [scaleParts, List.map_cons]
      dsimp only
      by_cases hzero : part.percent = 0
      · rw [if_neg (not_not.mpr hzero), if_neg (by decide), if_neg (not_not.mpr hzero), Option.map_eq_none_iff,
          ih (by rw [ten_thousand]), ten_thousand, hzero]
        exact (exceedsFrom_zero hsum).symm
      · have hword : part.percent.toNat ≠ 0 := fun h => hzero (UInt32.toNat_inj.mp h)
        rw [if_pos hzero, exceedsFrom_cons hsum hword, ← UInt32.toNat_add]
        by_cases hlarge : sum + part.percent > 10000
        · rw [if_pos hlarge]
          refine iff_of_true rfl (Or.inl ?_)
          rwa [gt_iff_lt, UInt32.lt_iff_toNat_lt, ten_thousand] at hlarge
        · have hle : ¬10000 < (sum + part.percent).toNat := by
            rwa [gt_iff_lt, UInt32.lt_iff_toNat_lt, ten_thousand] at hlarge
          rw [if_neg hlarge, if_pos hzero, Option.map_eq_none_iff, ih (Nat.le_of_not_lt hle)]
          exact ⟨Or.inr, fun h => h.resolve_left hle⟩

/-- The words of hundredths. -/
def words (ns : List ℕ) : List ℕ := ns.map fun n => n % 2 ^ 32

theorem words_partsOf {entries : List Entry} {ns : List ℕ} (h : Parsed entries ns) :
    ((partsOf entries ns).map fun part => part.percent.toNat) = words ns := by
  induction h with
  | nil => rfl
  | @cons entry n _ _ _ _ ih =>
      rw [words, List.map_cons, ← words, ← ih, ← UInt32.toNat_ofNat']
      rfl

theorem Parsed.readable {entries : List Entry} {ns : List ℕ} (h : Parsed entries ns) :
    ∀ entry ∈ entries, ∃ n ∈ ns, entryHundredths entry.text = some n := by
  induction h with
  | nil => exact fun entry hentry => absurd hentry List.not_mem_nil
  | @cons entry n _ _ hread _ ih =>
      refine List.forall_mem_cons.mpr ⟨⟨n, List.mem_cons_self, hread⟩, fun other hother => ?_⟩
      obtain ⟨m, hm, hread'⟩ := ih other hother
      exact ⟨m, List.mem_cons_of_mem n hm, hread'⟩

theorem parsed_of_readable {entries : List Entry} (h : ∀ entry ∈ entries, entryHundredths entry.text ≠ none) :
    ∃ ns, Parsed entries ns := by
  induction entries with
  | nil => exact ⟨[], .nil⟩
  | cons entry entries ih =>
      obtain ⟨hentry, hrest⟩ := List.forall_mem_cons.mp h
      obtain ⟨ns, hns⟩ := ih hrest
      obtain ⟨n, hn⟩ := Option.ne_none_iff_exists'.mp hentry
      exact ⟨n :: ns, .cons hn hns⟩

/-- Blocks are rejected for an entry that cannot be read, or for a total. -/
theorem block_none_iff (entries : List Entry) :
    ngxConfSplitClientsBlock entries = none ↔
      (∃ entry ∈ entries, entryHundredths entry.text = none) ∨ ∃ ns, Parsed entries ns ∧ Exceeds (words ns) := by
  have hscale : ∀ {ns}, Parsed entries ns → (ngxConfSplitClientsBlock entries = none ↔ Exceeds (words ns)) := by
    intro ns hns
    have hnone := @scaleParts_none_iff (partsOf entries ns) 0 0 (Nat.zero_le _)
    rw [words_partsOf hns, ExceedsFrom] at hnone
    rw [ngxConfSplitClientsBlock, parseParts_of_parsed hns, Exceeds]
    dsimp only
    rw [hnone]
    simp only [show (0 : UInt32).toNat = 0 from rfl, Nat.zero_add]
  constructor
  · intro hnone
    by_cases hread : ∃ entry ∈ entries, entryHundredths entry.text = none
    · exact Or.inl hread
    · obtain ⟨ns, hns⟩ := parsed_of_readable fun entry hentry heq => hread ⟨entry, hentry, heq⟩
      exact Or.inr ⟨ns, hns, (hscale hns).mp hnone⟩
  · rintro (⟨entry, hentry, hread⟩ | ⟨ns, hns, hexceeds⟩)
    · cases hparts : parseParts entries with
      | none =>
          rw [ngxConfSplitClientsBlock, hparts]
      | some parts =>
          obtain ⟨ns, hns⟩ := parsed_of_parseParts hparts
          obtain ⟨n, -, hn⟩ := hns.readable entry hentry
          rw [hread] at hn
          cases hn
    · exact (hscale hns).mpr hexceeds

/-! ### Acceptance -/

/-- No percentage is so large that a total of 32 bits can wrap, and no `*` follows a `*`. -/
def Plain (entries : List Entry) : Prop :=
  (∀ entry ∈ entries, ∀ n, entryHundredths entry.text = some n → n < 2 ^ 32 - 10000) ∧
    entries.Pairwise fun one other => ¬(one.text = [star] ∧ other.text = [star])

/-- Accepted totals of a plain block are the totals of what is written. -/
theorem written_of_plain {entries : List Entry} {ns : List ℕ} {s : ℕ} (hns : Parsed entries ns) (hplain : Plain entries)
    (hs : s ≤ 10000) (htotals : ¬ExceedsFrom s (words ns)) :
    ∃ percents : List ℕ, (BlockWritten entries (percents.map some) ∨ BlockWritten entries (percents.map some ++ [none])) ∧
      s + percents.sum ≤ 10000 := by
  induction hns generalizing s with
  | nil => exact ⟨[], Or.inl .nil, hs⟩
  | @cons entry n entries ns hread hrest ih =>
      obtain ⟨hsmall, hstars⟩ := hplain
      obtain ⟨hsmallHead, hsmallRest⟩ := List.forall_mem_cons.mp hsmall
      obtain ⟨hstar, hstarsRest⟩ := List.pairwise_cons.mp hstars
      have hn := hsmallHead n hread
      have hword : words (n :: ns) = n :: words ns := by
        rw [words, List.map_cons, Nat.mod_eq_of_lt (by omega), ← words]
      rw [hword] at htotals
      by_cases hzero : n = 0
      · -- behind `*` there is room for nothing but another one
        subst hzero
        rw [exceedsFrom_zero hs] at htotals
        obtain ⟨percents, hwritten, hsum⟩ := ih ⟨hsmallRest, hstarsRest⟩ (Nat.le_refl _) htotals
        have htext : entry.text = [star] := by
          rcases written_of_entryHundredths hread with ⟨-, htext⟩ | ⟨-, -, -, hpos⟩
          · exact htext
          · exact absurd hpos (Nat.lt_irrefl 0)
        cases percents with
        | nil =>
            refine ⟨[], Or.inr ?_, hs⟩
            rcases hwritten with hwritten | hwritten
            · cases hwritten
              exact .cons htext .nil
            · cases hwritten with
              | @cons other _ _ _ hother _ => exact absurd ⟨htext, hother⟩ (hstar other List.mem_cons_self)
        | cons m percents =>
            have hpos : 0 < m := by
              rcases hwritten with hwritten | hwritten
              · cases hwritten with
                | cons hfirst _ =>
                    obtain ⟨-, -, -, hpos⟩ := hfirst
                    exact hpos
              · cases hwritten with
                | cons hfirst _ =>
                    obtain ⟨-, -, -, hpos⟩ := hfirst
                    exact hpos
            rw [List.sum_cons] at hsum
            omega
      · rw [exceedsFrom_cons hs hzero, not_or, Nat.mod_eq_of_lt (by omega)] at htotals
        obtain ⟨hle, htotals⟩ := htotals
        obtain ⟨percents, hwritten, hsum⟩ := ih ⟨hsmallRest, hstarsRest⟩ (Nat.le_of_not_lt hle) htotals
        have hentry : Written entry.text (some n) := by
          rcases written_of_entryHundredths hread with ⟨hn, -⟩ | hwritten
          · exact absurd hn hzero
          · exact hwritten
        refine ⟨n :: percents, ?_, by rw [List.sum_cons]; omega⟩
        rcases hwritten with hwritten | hwritten
        · exact Or.inl (.cons hentry hwritten)
        · exact Or.inr (.cons hentry hwritten)

/-- An accepted plain block is proper. -/
theorem proper_of_plain {entries : List Entry} (hplain : Plain entries)
    (haccepted : ngxConfSplitClientsBlock entries ≠ none) : Proper entries := by
  obtain ⟨hread, htotals⟩ := not_or.mp (mt (block_none_iff entries).mpr haccepted)
  obtain ⟨ns, hns⟩ := parsed_of_readable fun entry hentry heq => hread ⟨entry, hentry, heq⟩
  have hexceeds : ¬ExceedsFrom 0 (words ns) := fun h => by
    refine htotals ⟨ns, hns, ?_⟩
    rw [ExceedsFrom] at h
    simp only [Nat.zero_add] at h
    exact h
  obtain ⟨percents, hwritten, hsum⟩ := written_of_plain hns hplain (Nat.zero_le _) hexceeds
  exact ⟨percents.sum, (Nat.zero_add _).symm.trans_le hsum, percents, hwritten, rfl⟩

theorem text_ne_star {text : List UInt8} {n : ℕ} (h : Written text (some n)) : text ≠ [star] := by
  obtain ⟨line, rfl, -, -⟩ := h
  intro heq
  have hlast := congrArg List.getLast? heq
  rw [List.getLast?_concat] at hlast
  exact absurd hlast (by decide)

theorem plain_of_written {entries : List Entry} {percents : List ℕ} (h : BlockWritten entries (percents.map some))
    (hsum : percents.sum ≤ 10000) : Plain entries ∧ ∀ entry ∈ entries, entry.text ≠ [star] := by
  have hstars : ∀ entry ∈ entries, entry.text ≠ [star] := by
    clear hsum
    induction percents generalizing entries with
    | nil =>
        cases h
        exact fun entry hentry => absurd hentry List.not_mem_nil
    | cons n percents ih =>
        cases h with
        | cons hentry hrest => exact List.forall_mem_cons.mpr ⟨text_ne_star hentry, ih hrest⟩
  refine ⟨⟨fun entry hentry n hn => ?_, ?_⟩, hstars⟩
  · obtain ⟨m, hm, hread⟩ := (parsed_of_written h hsum).1.readable entry hentry
    obtain rfl : n = m := Option.some.inj (hn.symm.trans hread)
    have hle := List.single_le_sum (fun _ _ => Nat.zero_le _) n hm
    omega
  · exact List.pairwise_of_forall_mem_list fun one hone other _ hboth => hstars one hone hboth.1

theorem plain_of_proper {entries : List Entry} (h : Proper entries) : Plain entries := by
  obtain ⟨total, htotal, percents, hwritten | hwritten, rfl⟩ := h
  · exact (plain_of_written hwritten htotal).1
  · obtain ⟨init, value, rfl, hinit⟩ := written_star hwritten
    obtain ⟨⟨hsmall, hpairs⟩, hstars⟩ := plain_of_written hinit htotal
    refine ⟨fun entry hentry n hn => ?_, ?_⟩
    · rcases List.mem_append.mp hentry with hentry | hentry
      · exact hsmall entry hentry n hn
      · rw [List.mem_singleton.mp hentry] at hn
        obtain rfl : 0 = n := Option.some.inj hn
        omega
    · rw [List.pairwise_append]
      exact ⟨hpairs, List.pairwise_singleton _ _, fun one hone other _ hboth => hstars one hone hboth.1⟩

/-! ### Coverage -/

/-- The text of an address, `70.36.161.156`. -/
def greatestKey : List UInt8 := [55, 48, 46, 51, 54, 46, 49, 54, 49, 46, 49, 53, 54]

theorem ngxMurmurHash2_greatestKey : ngxMurmurHash2 greatestKey = 0xffffffff := by decide

/-- A block covers everyone if and only if it does not add up to 100% without a `*`, and if it is plain or rejected. -/
theorem coversEveryone_iff (entries : List Entry) :
    CoversEveryone entries ↔
      (¬∃ percents : List ℕ, BlockWritten entries (percents.map some) ∧ percents.sum = 10000) ∧
      (Plain entries ∨ (∃ entry ∈ entries, entryHundredths entry.text = none) ∨
        ∃ ns, Parsed entries ns ∧ Exceeds (words ns)) := by
  rw [← block_none_iff]
  constructor
  · rintro ⟨hassigned, haccepted⟩
    refine ⟨fun ⟨percents, hwritten, hsum⟩ => ?_, ?_⟩
    · obtain ⟨scaled, hnonzero, hblock, -⟩ := block_of_percents hwritten hsum.le
      obtain ⟨entry, -, hvalue⟩ := hassigned scaled hblock ⟨percents, Or.inl hwritten, hsum⟩ greatestKey
      rw [ngxStreamSplitClientsVariable, ngxMurmurHash2_greatestKey, assign_greatest hnonzero] at hvalue
      cases hvalue
    · by_cases hnone : ngxConfSplitClientsBlock entries = none
      · exact Or.inr hnone
      · exact Or.inl (plain_of_proper (haccepted.mp (Option.isSome_iff_ne_none.mpr hnone)))
  · rintro ⟨hnotFull, hsound⟩
    refine ⟨fun parts hparts haddsUp key => ?_, fun hsome => ?_, fun hproper => ?_⟩
    · obtain ⟨percents, hwritten | hwritten, hsum⟩ := haddsUp
      · exact absurd ⟨percents, hwritten, hsum⟩ hnotFull
      · have hmem := value_mem hparts
        obtain ⟨init, value, rfl, hinit⟩ := written_star hwritten
        obtain ⟨scaled, -, -, hblock⟩ := block_of_percents hinit hsum.le
        obtain rfl := Option.some.inj (hparts.symm.trans (hblock value))
        obtain ⟨part, hpart, hassign⟩ := @assign_of_zero (ngxMurmurHash2 key) (scaled ++ [⟨0, value⟩])
          ⟨⟨0, value⟩, List.mem_append_right _ List.mem_cons_self, rfl⟩
        obtain ⟨entry, hentry, hvalue⟩ := hmem part hpart
        exact ⟨entry, hentry, hvalue ▸ hassign⟩
    · have hne := Option.isSome_iff_ne_none.mp hsome
      exact hsound.elim (fun hplain => proper_of_plain hplain hne) fun hnone => absurd hnone hne
    · obtain ⟨parts, hparts⟩ := proper_accepted hproper
      rw [hparts]
      rfl

/-- `50% a; 50% b;` leaves an address without a value. -/
theorem halves_not_covered : ¬CoversEveryone [⟨[53, 48, 37], [97]⟩, ⟨[53, 48, 37], [98]⟩] := by
  rintro ⟨hassigned, -⟩
  have hdigits : ∀ c ∈ ([53, 48] : List UInt8), IsDecimal c :=
    List.forall_mem_cons.mpr ⟨by decide, List.forall_mem_singleton.mpr (by decide)⟩
  have hfifty : decimalFrom 0 [53, 48] = 50 := by decide
  have hhalf : Written [53, 48, 37] (some 5000) :=
    ⟨[53, 48], rfl, ⟨by decide, Or.inl ⟨hdigits, by rw [hfifty]⟩⟩, Nat.succ_pos 4999⟩
  obtain ⟨entry, -, hvalue⟩ := hassigned [⟨2147483647, [97]⟩, ⟨4294967294, [98]⟩] (by decide)
    ⟨[5000, 5000], Or.inl (.cons hhalf (.cons hhalf .nil)), rfl⟩ greatestKey
  rw [ngxStreamSplitClientsVariable, ngxMurmurHash2_greatestKey] at hvalue
  cases hvalue

end NginxDtls.SplitClients
