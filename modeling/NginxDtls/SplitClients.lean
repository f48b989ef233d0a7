import NginxDtls.InetGrammar

/-! The `split_clients` block: `ngx_conf_split_clients_block`, `ngx_stream_split_clients` and the variable, with
`ngx_atofp` and `ngx_murmur_hash2`. Percentages are hundredths in words of 32 bits, and become thresholds of the hash. -/

namespace NginxDtls.SplitClients

/-! ### Fixed point numbers -/

/-- `NGX_MAX_INT_T_VALUE` -/
def ngxMaxIntTValue : ℕ := 2 ^ 63 - 1

/-- `while (point--)` -/
def atofpScale : ℕ → ℕ → Option ℕ
  | 0, value => some value
  | point + 1, value => if value > ngxMaxIntTValue / 10 then none else atofpScale point (value * 10)

/-- The loop of `ngx_atofp`. -/
def atofpLoop : List UInt8 → ℕ → ℕ → ℕ → Option ℕ
  | [], point, value, _ => atofpScale point value
  | c :: line, point, value, pt =>
    if point = 0 then none
    else if c = dot then if pt ≠ 0 then none else atofpLoop line point value 1
    else if c < 48 ∨ c > 57 then none
    else if value ≥ ngxMaxIntTValue / 10 ∧ (value > ngxMaxIntTValue / 10 ∨ c.toNat - 48 > ngxMaxIntTValue % 10) then none
    else atofpLoop line (point - pt) (value * 10 + (c.toNat - 48)) pt

/-- `ngx_atofp`; `none` is `NGX_ERROR`. -/
def ngxAtofp (line : List UInt8) (point : ℕ) : Option ℕ := if line = [] then none else atofpLoop line point 0 0

/-! ### Hashes -/

def murmurM : UInt32 := 0x5bd1e995

def murmurMix (k : UInt32) : UInt32 :=
  let k := k * murmurM
  (k ^^^ k >>> 24) * murmurM

/-- The bytes of `ngx_murmur_hash2`, four at a time. -/
def murmurLoop : UInt32 → List UInt8 → UInt32
  | h, a :: b :: c :: d :: data =>
    murmurLoop (h * murmurM ^^^ murmurMix (a.toUInt32 ||| b.toUInt32 <<< 8 ||| c.toUInt32 <<< 16 ||| d.toUInt32 <<< 24))
      data
  | h, [a, b, c] => (h ^^^ c.toUInt32 <<< 16 ^^^ b.toUInt32 <<< 8 ^^^ a.toUInt32) * murmurM
  | h, [a, b] => (h ^^^ b.toUInt32 <<< 8 ^^^ a.toUInt32) * murmurM
  | h, [a] => (h ^^^ a.toUInt32) * murmurM
  | h, [] => h

def ngxMurmurHash2 (data : List UInt8) : UInt32 :=
  let h := murmurLoop (UInt32.ofNat data.length) data
  let h := (h ^^^ h >>> 13) * murmurM
  h ^^^ h >>> 15

/-! ### The block -/

/-- An entry of the block: `value[0]` and `value[1]`. -/
structure Entry where
  text : List UInt8
  value : List UInt8
  deriving DecidableEq, Repr

/-- `ngx_stream_split_clients_part_t` -/
structure Part where
  percent : UInt32
  value : List UInt8
  deriving DecidableEq, Repr

def star : UInt8 := 42

def percentSign : UInt8 := 37

/-- The hundredths of an entry as `ngx_stream_split_clients` reads them, and none for `*`. -/
def entryHundredths (text : List UInt8) : Option ℕ :=
  if text = [star] then some 0
  else if text.getLast? ≠ some percentSign then none
  else
    match ngxAtofp text.dropLast 2 with
    | none => none
    | some n => if n = 0 then none else some n

/-- `ngx_stream_split_clients`; `none` is an invalid percent value. -/
def ngxStreamSplitClients (entry : Entry) : Option Part :=
  (entryHundredths entry.text).map fun n => ⟨UInt32.ofNat n, entry.value⟩

/-- `ngx_conf_parse` of the block, with the handler of its entries. -/
def parseParts : List Entry → Option (List Part)
  | [] => some []
  | entry :: entries =>
    match ngxStreamSplitClients entry with
    | none => none
    | some part => (parseParts entries).map (part :: ·)

/-- The loop over the parts; `none` is a percent total that is greater than 100%. -/
def scaleParts : List Part → UInt32 → UInt32 → Option (List Part)
  | [], _, _ => some []
  | part :: parts, sum, last =>
    let sum := if part.percent ≠ 0 then sum + part.percent else 10000
    if sum > 10000 then none
    else if part.percent ≠ 0 then
      let last := last + UInt32.ofNat (part.percent.toNat * 0xffffffff / 10000)
      (scaleParts parts sum last).map ({ part with percent := last } :: ·)
    else (scaleParts parts sum last).map (part :: ·)

/-- `ngx_conf_split_clients_block`: the parts of an accepted block. -/
def ngxConfSplitClientsBlock (entries : List Entry) : Option (List Part) :=
  match parseParts entries with
  | none => none
  | some parts => scaleParts parts 0 0

/-- The loop of the variable. -/
def assign (hash : UInt32) : List Part → Option (List UInt8)
  | [] => none
  | part :: parts => if hash < part.percent ∨ part.percent = 0 then some part.value else assign hash parts

/-- `ngx_stream_split_clients_variable` with the value of the key, if it has one; `none` is the null value. -/
def ngxStreamSplitClientsVariable (parts : List Part) (val : Option (List UInt8)) : Option (List UInt8) :=
  match val with
  | none => none
  | some val => assign (ngxMurmurHash2 val) parts

/-! ### Percentages as they are written -/

/-- A number with up to two decimals, in hundredths. -/
def Fixed (line : List UInt8) (n : ℕ) : Prop :=
  line ≠ [] ∧ ((∀ c ∈ line, IsDecimal c) ∧ n = decimalFrom 0 line * 100 ∨
    ∃ whole frac, line = whole ++ dot :: frac ∧ (∀ c ∈ whole ++ frac, IsDecimal c) ∧ frac.length ≤ 2 ∧
      n = decimalFrom 0 (whole ++ frac) * 10 ^ (2 - frac.length))

/-- What is written in an entry: `none` is `*`, and a percentage is not zero. -/
def Written (text : List UInt8) : Option ℕ → Prop
  | none => text = [star]
  | some n => ∃ line, text = line ++ [percentSign] ∧ Fixed line n ∧ 0 < n

/-- What is written in the entries of a block. -/
def BlockWritten (entries : List Entry) (items : List (Option ℕ)) : Prop :=
  List.Forall₂ (fun entry item => Written entry.text item) entries items

/-- The percentages add up to the total, without or with a final `*`. -/
def AddsUp (entries : List Entry) (total : ℕ) : Prop :=
  ∃ percents : List ℕ, (BlockWritten entries (percents.map some) ∨ BlockWritten entries (percents.map some ++ [none])) ∧
    percents.sum = total

/-- The percentages add up to at most 100%, and nothing follows `*`. -/
def Proper (entries : List Entry) : Prop := ∃ total ≤ 10000, AddsUp entries total

/-- A block that adds up to 100% has a value for every key, and the proper blocks are those that are accepted. -/
def CoversEveryone (entries : List Entry) : Prop :=
  (∀ parts, ngxConfSplitClientsBlock entries = some parts → AddsUp entries 10000 →
    ∀ key, ∃ entry ∈ entries, ngxStreamSplitClientsVariable parts (some key) = some entry.value) ∧
  ((ngxConfSplitClientsBlock entries).isSome ↔ Proper entries)

/-! ### Reading fixed point numbers -/

theorem atofpScale_some {point value n : ℕ} (h : atofpScale point value = some n) : n = value * 10 ^ point := by
  induction point generalizing value with
  | zero =>
      cases h
      exact (Nat.mul_one _).symm
  | succ point ih =>
      rw [atofpScale] at h
      split at h
      · cases h
      · rw [ih h, pow_succ, Nat.mul_assoc, Nat.mul_comm 10]

theorem atofpScale_of_le {point value : ℕ} (h : value * 10 ^ point ≤ 10000) :
    atofpScale point value = some (value * 10 ^ point) := by
  induction point generalizing value with
  | zero => rw [atofpScale, pow_zero, Nat.mul_one]
  | succ point ih =>
      rw [pow_succ, Nat.mul_comm _ 10, ← Nat.mul_assoc] at h
      have hpos : 1 ≤ 10 ^ point := Nat.one_le_pow _ _ (by decide)
      have hvalue := Nat.le_mul_of_pos_right (value * 10) hpos
      rw [atofpScale, if_neg (by rw [ngxMaxIntTValue]; omega), ih h, pow_succ, Nat.mul_assoc, Nat.mul_comm 10]

theorem le_decimalFrom (value : ℕ) (line : List UInt8) : value ≤ decimalFrom value line := by
  induction line generalizing value with
  | nil => exact Nat.le_refl value
  | cons c line ih => exact Nat.le_trans (by omega) (ih (value * 10 + (c.toNat - 48)))

theorem not_decimal_iff {c : UInt8} : ¬(c < 48 ∨ c > 57) ↔ IsDecimal c := by
  rw [not_or, UInt8.not_lt, UInt8.not_lt]
  rfl

theorem ne_dot_of_decimal {c : UInt8} (h : IsDecimal c) : c ≠ dot := by
  rintro rfl
  exact absurd h (by decide)

/-- Behind the point only as many digits are read as there are places. -/
theorem atofpLoop_frac {line : List UInt8} {point value n : ℕ} (h : atofpLoop line point value 1 = some n) :
    (∀ c ∈ line, IsDecimal c) ∧ line.length ≤ point ∧ n = decimalFrom value line * 10 ^ (point - line.length) := by
  induction line generalizing point value with
  | nil => exact ⟨fun c hc => absurd hc List.not_mem_nil, Nat.zero_le point, atofpScale_some h⟩
  | cons c line ih =>
      rw [atofpLoop] at h
      split_ifs at h with hpoint hdot hone hrange
      · exact absurd hone (by decide)
      · obtain ⟨hdigits, hlength, hn⟩ := ih h
        refine ⟨fun d hd => ?_, by rw [List.length_cons]; omega, ?_⟩
        · rcases List.mem_cons.mp hd with rfl | hd
          · exact not_decimal_iff.mp hrange
          · exact hdigits d hd
        · rw [hn, List.length_cons, Nat.sub_sub, Nat.add_comm 1]
          rfl

theorem atofpLoop_some {line : List UInt8} {value n : ℕ} (h : atofpLoop line 2 value 0 = some n) :
    (∀ c ∈ line, IsDecimal c) ∧ n = decimalFrom value line * 100 ∨
      ∃ whole frac, line = whole ++ dot :: frac ∧ (∀ c ∈ whole ++ frac, IsDecimal c) ∧ frac.length ≤ 2 ∧
        n = decimalFrom value (whole ++ frac) * 10 ^ (2 - frac.length) := by
  induction line generalizing value with
  | nil => exact Or.inl ⟨fun c hc => absurd hc List.not_mem_nil, atofpScale_some h⟩
  | cons c line ih =>
      rw [atofpLoop, if_neg (by decide)] at h
      by_cases hdot : c = dot
      · rw [if_pos hdot, if_neg (by decide)] at h
        obtain ⟨hdigits, hlength, hn⟩ := atofpLoop_frac h
        exact Or.inr ⟨[], line, by rw [hdot]; rfl, hdigits, hlength, hn⟩
      · rw [if_neg hdot] at h
        split_ifs at h with hrange
        have hc := not_decimal_iff.mp hrange
        rcases ih h with ⟨hdigits, hn⟩ | ⟨whole, frac, rfl, hdigits, hlength, hn⟩
        · exact Or.inl ⟨List.forall_mem_cons.mpr ⟨hc, hdigits⟩, hn⟩
        · exact Or.inr ⟨c :: whole, frac, rfl, List.forall_mem_cons.mpr ⟨hc, hdigits⟩, hlength, hn⟩

/-- What is read is what is written. -/
theorem fixed_of_ngxAtofp {line : List UInt8} {n : ℕ} (h : ngxAtofp line 2 = some n) : Fixed line n := by
  rw [ngxAtofp] at h
  split_ifs at h with hne
  exact ⟨hne, atofpLoop_some h⟩

theorem atofpLoop_frac_of_le {line : List UInt8} {point value : ℕ} (hline : ∀ c ∈ line, IsDecimal c)
    (hlength : line.length ≤ point) (hle : decimalFrom value line * 10 ^ (point - line.length) ≤ 10000) :
    atofpLoop line point value 1 = some (decimalFrom value line * 10 ^ (point - line.length)) := by
  induction line generalizing point value with
  | nil => exact atofpScale_of_le hle
  | cons c line ih =>
      obtain ⟨hc, hrest⟩ := List.forall_mem_cons.mp hline
      rw [List.length_cons] at hlength hle ⊢
      have hsub : point - (line.length + 1) = point - 1 - line.length := by omega
      have hdecimal : decimalFrom value (c :: line) = decimalFrom (value * 10 + (c.toNat - 48)) line := rfl
      rw [hsub, hdecimal] at hle ⊢
      have hgrow := le_decimalFrom (value * 10 + (c.toNat - 48)) line
      have hpos : 1 ≤ 10 ^ (point - 1 - line.length) := Nat.one_le_pow _ _ (by decide)
      have hscale := Nat.le_mul_of_pos_right (decimalFrom (value * 10 + (c.toNat - 48)) line) hpos
      rw [atofpLoop, if_neg (by omega), if_neg (ne_dot_of_decimal hc), if_neg (not_decimal_iff.mpr hc),
        if_neg (by rw [ngxMaxIntTValue]; omega), ih hrest (by omega) hle]

theorem atofpLoop_whole_of_le {whole line : List UInt8} {value n : ℕ} (hwhole : ∀ c ∈ whole, IsDecimal c)
    (hle : decimalFrom value whole ≤ 10000) (hline : atofpLoop line 2 (decimalFrom value whole) 0 = some n) :
    atofpLoop (whole ++ line) 2 value 0 = some n := by
  induction whole generalizing value with
  | nil => exact hline
  | cons c whole ih =>
      obtain ⟨hc, hrest⟩ := List.forall_mem_cons.mp hwhole
      have hgrow := le_decimalFrom (value * 10 + (c.toNat - 48)) whole
      have hdecimal : decimalFrom value (c :: whole) = decimalFrom (value * 10 + (c.toNat - 48)) whole := rfl
      rw [hdecimal] at hle hline
      rw [List.cons_append, atofpLoop, if_neg (by decide), if_neg (ne_dot_of_decimal hc), if_neg (not_decimal_iff.mpr hc),
        if_neg (by rw [ngxMaxIntTValue]; omega), Nat.sub_zero]
      exact ih hrest hle hline

/-- A number up to 100% is read as it is written. -/
theorem ngxAtofp_of_fixed {line : List UInt8} {n : ℕ} (h : Fixed line n) (hle : n ≤ 10000) :
    ngxAtofp line 2 = some n := by
  obtain ⟨hne, hform⟩ := h
  rw [ngxAtofp, if_neg hne]
  rcases hform with ⟨hdigits, rfl⟩ | ⟨whole, frac, rfl, hdigits, hlength, rfl⟩
  · have hread := @atofpLoop_whole_of_le line [] 0 (decimalFrom 0 line * 100) hdigits (by omega)
      (@atofpScale_of_le 2 (decimalFrom 0 line) hle)
    rwa [List.append_nil] at hread
  · obtain ⟨hwhole, hfrac⟩ := List.forall_mem_append.mp hdigits
    have hsplit : decimalFrom 0 (whole ++ frac) = decimalFrom (decimalFrom 0 whole) frac := List.foldl_append
    rw [hsplit] at hle ⊢
    have hgrow := le_decimalFrom (decimalFrom 0 whole) frac
    have hpos : 1 ≤ 10 ^ (2 - frac.length) := Nat.one_le_pow _ _ (by decide)
    have hscale := Nat.le_mul_of_pos_right (decimalFrom (decimalFrom 0 whole) frac) hpos
    refine atofpLoop_whole_of_le hwhole (by omega) ?_
    rw [atofpLoop, if_neg (by decide), if_pos rfl, if_neg (by decide)]
    exact atofpLoop_frac_of_le hfrac hlength hle

/-- What an entry is read as, is written in it. -/
theorem written_of_entryHundredths {text : List UInt8} {n : ℕ} (h : entryHundredths text = some n) :
    n = 0 ∧ text = [star] ∨ Written text (some n) := by
  rw [entryHundredths] at h
  split_ifs at h with hstar hlast
  · exact Or.inl ⟨(Option.some.inj h).symm, hstar⟩
  · cases hread : ngxAtofp text.dropLast 2 with
    | none =>
        rw [hread] at h
        cases h
    | some m =>
        rw [hread] at h
        dsimp only at h
        split_ifs at h with hzero
        obtain rfl := Option.some.inj h
        exact Or.inr ⟨text.dropLast, (List.dropLast_append_getLast? _ (not_not.mp hlast)).symm, fixed_of_ngxAtofp hread,
          Nat.pos_of_ne_zero hzero⟩

theorem entryHundredths_of_written {text : List UInt8} {n : ℕ} (h : Written text (some n)) (hle : n ≤ 10000) :
    entryHundredths text = some n := by
  obtain ⟨line, rfl, hfixed, hpos⟩ := h
  have hne := hfixed.1
  have hstar : line ++ [percentSign] ≠ [star] := fun heq => by
    have hlast := congrArg List.getLast? heq
    rw [List.getLast?_concat] at hlast
    exact absurd hlast (by decide)
  rw [entryHundredths, if_neg hstar, if_neg (by rw [List.getLast?_concat]; simp), List.dropLast_concat,
    ngxAtofp_of_fixed hfixed hle]
  exact if_neg (Nat.pos_iff_ne_zero.mp hpos)

end NginxDtls.SplitClients
