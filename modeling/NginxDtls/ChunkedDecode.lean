import NginxDtls.ChunkedParse

/-! What the parser and the filter do to a stream of bytes, one byte after another, wherever the stream is cut: the calls of the
parser, the data that is skipped by the filter and the chunks that are moved in a buffer come to the same. -/

namespace NginxDtls.ChunkedBody

/-! ### The stream -/

/-- What has become of a stream: more must come, or it has come to an end with some bytes left, or it is rejected. -/
inductive Decoded where
  | again (state : ChunkedState) (size : ℕ) (n : ℤ) (data : List UInt8)
  | done (rest : List UInt8) (n : ℤ) (data : List UInt8)
  | invalid
  | tooLarge

/-- Data that has come before. -/
def Decoded.after (data : List UInt8) : Decoded → Decoded
  | .again state size n more => .again state size n (data ++ more)
  | .done rest n more => .done rest n (data ++ more)
  | .invalid => .invalid
  | .tooLarge => .tooLarge

/-- The limit of the body does not allow a chunk. -/
def Conf.Exceeded (conf : Conf) (n : ℤ) (size : ℕ) : Prop := conf.clientMaxBodySize ≠ 0 ∧ conf.clientMaxBodySize - n < size

instance (conf : Conf) (n : ℤ) (size : ℕ) : Decidable (conf.Exceeded n size) := inferInstanceAs (Decidable (_ ∧ _))

/-- The stream byte by byte, with the length `n` of the data so far. -/
def decode (conf : Conf) : ChunkedState → ℕ → ℤ → List UInt8 → Decoded
  | state, size, n, [] => if size > maxOffT - 5 then .invalid else .again (enter state size) size n []
  | state, size, n, ch :: w =>
    match chunkedByte (enter state size) size ch with
    | .next state size => decode conf state size n w
    | .data =>
      if size > maxOffT - 5 then .invalid
      else if conf.Exceeded n size then .tooLarge
      else (decode conf .chunkData (size - 1) (n + 1) w).after [ch]
    | .done => .done w n []
    | .invalid => .invalid

theorem Decoded.after_nil (d : Decoded) : d.after [] = d := by
  cases d <;> rfl

theorem Decoded.after_after (d : Decoded) (data more : List UInt8) : (d.after more).after data = d.after (data ++ more) := by
  cases d <;> simp [Decoded.after]

/-! ### What a byte does -/

/-- The bytes with which the parser goes on. -/
inductive Step : ChunkedState → ℕ → UInt8 → ChunkedState → ℕ → Prop where
  | first {size d : ℕ} {ch : UInt8} (h : hexDigit ch = some d) : Step .chunkStart size ch .chunkSize d
  | digit {size d : ℕ} {ch : UInt8} (hsize : size ≤ maxOffT / 16) (h : hexDigit ch = some d) :
      Step .chunkSize size ch .chunkSize (size * 16 + d)
  | lastCr : Step .chunkSize 0 cr .lastChunkExtensionAlmostDone 0
  | lastLf : Step .chunkSize 0 lf .trailer 0
  | lastSeparator {ch : UInt8} (h : isSeparator ch = true) : Step .chunkSize 0 ch .lastChunkExtension 0
  | sizeCr {size : ℕ} (hpos : 0 < size) (hsize : size ≤ maxOffT / 16) :
      Step .chunkSize size cr .chunkExtensionAlmostDone size
  | sizeLf {size : ℕ} (hpos : 0 < size) (hsize : size ≤ maxOffT / 16) : Step .chunkSize size lf .chunkData size
  | sizeSeparator {size : ℕ} {ch : UInt8} (hpos : 0 < size) (hsize : size ≤ maxOffT / 16) (h : isSeparator ch = true) :
      Step .chunkSize size ch .chunkExtension size
  | extension {size : ℕ} {ch : UInt8} (hcr : ch ≠ cr) (hlf : ch ≠ lf) : Step .chunkExtension size ch .chunkExtension size
  | extensionCr {size : ℕ} : Step .chunkExtension size cr .chunkExtensionAlmostDone size
  | extensionLf {size : ℕ} : Step .chunkExtension size lf .chunkData size
  | extensionDone {size : ℕ} : Step .chunkExtensionAlmostDone size lf .chunkData size
  | afterCr {size : ℕ} : Step .afterData size cr .afterDataAlmostDone size
  | afterLf {size : ℕ} : Step .afterData size lf .chunkStart size
  | afterDone {size : ℕ} : Step .afterDataAlmostDone size lf .chunkStart size
  | lastExtension {size : ℕ} {ch : UInt8} (hcr : ch ≠ cr) (hlf : ch ≠ lf) :
      Step .lastChunkExtension size ch .lastChunkExtension size
  | lastExtensionCr {size : ℕ} : Step .lastChunkExtension size cr .lastChunkExtensionAlmostDone size
  | lastExtensionLf {size : ℕ} : Step .lastChunkExtension size lf .trailer size
  | lastExtensionDone {size : ℕ} : Step .lastChunkExtensionAlmostDone size lf .trailer size
  | trailerCr {size : ℕ} : Step .trailer size cr .trailerAlmostDone size
  | trailerHeader {size : ℕ} {ch : UInt8} (hcr : ch ≠ cr) (hlf : ch ≠ lf) : Step .trailer size ch .trailerHeader size
  | header {size : ℕ} {ch : UInt8} (hcr : ch ≠ cr) (hlf : ch ≠ lf) : Step .trailerHeader size ch .trailerHeader size
  | headerCr {size : ℕ} : Step .trailerHeader size cr .trailerHeaderAlmostDone size
  | headerLf {size : ℕ} : Step .trailerHeader size lf .trailer size
  | headerDone {size : ℕ} : Step .trailerHeaderAlmostDone size lf .trailer size

theorem lineFeed_next {behind state : ChunkedState} {size size' : ℕ} {ch : UInt8}
    (h : lineFeed behind size ch = .next state size') : ch = lf ∧ state = behind ∧ size' = size := by
  rw [lineFeed] at h
  split at h
  · rename_i hlf
    obtain ⟨rfl, rfl⟩ := ByteResult.next.inj h
    exact ⟨hlf, rfl, rfl⟩
  · cases h

theorem skipByte_next {here almostDone behind state : ChunkedState} {size size' : ℕ} {ch : UInt8}
    (h : skipByte here almostDone behind size ch = .next state size') : size' = size ∧
      (ch = cr ∧ state = almostDone ∨ ch = lf ∧ state = behind ∨ ch ≠ cr ∧ ch ≠ lf ∧ state = here) := by
  rw [skipByte] at h
  split at h
  · rename_i hcr
    obtain ⟨rfl, rfl⟩ := ByteResult.next.inj h
    exact ⟨rfl, Or.inl ⟨hcr, rfl⟩⟩
  · rename_i hcr
    split at h
    · rename_i hlf
      obtain ⟨rfl, rfl⟩ := ByteResult.next.inj h
      exact ⟨rfl, Or.inr (Or.inl ⟨hlf, rfl⟩)⟩
    · rename_i hlf
      obtain ⟨rfl, rfl⟩ := ByteResult.next.inj h
      exact ⟨rfl, Or.inr (Or.inr ⟨hcr, hlf, rfl⟩)⟩

theorem step_of_next {state state' : ChunkedState} {size size' : ℕ} {ch : UInt8}
    (h : chunkedByte state size ch = .next state' size') : Step state size ch state' size' := by
  cases state with
  | chunkStart =>
      rw [chunkedByte] at h
      split at h
      · rename_i d hd
        obtain ⟨rfl, rfl⟩ := ByteResult.next.inj h
        exact .first hd
      · cases h
  | chunkSize =>
      rw [chunkedByte] at h
      split at h
      · cases h
      · rename_i hsize
        have hle := not_lt.mp hsize
        split at h
        · rename_i d hd
          obtain ⟨rfl, rfl⟩ := ByteResult.next.inj h
          exact .digit hle hd
        · split at h
          · rename_i hzero
            subst hzero
            split at h
            · rename_i hcr
              obtain ⟨rfl, rfl⟩ := ByteResult.next.inj h
              exact hcr ▸ .lastCr
            · split at h
              · rename_i hlf
                obtain ⟨rfl, rfl⟩ := ByteResult.next.inj h
                exact hlf ▸ .lastLf
              · split at h
                · rename_i hsep
                  obtain ⟨rfl, rfl⟩ := ByteResult.next.inj h
                  exact .lastSeparator hsep
                · cases h
          · rename_i hne
            have hpos := Nat.pos_of_ne_zero hne
            split at h
            · rename_i hcr
              obtain ⟨rfl, rfl⟩ := ByteResult.next.inj h
              exact hcr ▸ .sizeCr hpos hle
            · split at h
              · rename_i hlf
                obtain ⟨rfl, rfl⟩ := ByteResult.next.inj h
                exact hlf ▸ .sizeLf hpos hle
              · split at h
                · rename_i hsep
                  obtain ⟨rfl, rfl⟩ := ByteResult.next.inj h
                  exact .sizeSeparator hpos hle hsep
                · cases h
  | chunkExtension =>
      obtain ⟨rfl, ⟨rfl, rfl⟩ | ⟨rfl, rfl⟩ | ⟨hcr, hlf, rfl⟩⟩ := skipByte_next h
      · exact .extensionCr
      · exact .extensionLf
      · exact .extension hcr hlf
  | chunkExtensionAlmostDone =>
      obtain ⟨rfl, rfl, rfl⟩ := lineFeed_next h
      exact .extensionDone
  | chunkData => cases h
  | afterData =>
      rw [chunkedByte] at h
      split at h
      · rename_i hcr
        obtain ⟨rfl, rfl⟩ := ByteResult.next.inj h
        exact hcr ▸ .afterCr
      · split at h
        · rename_i hlf
          obtain ⟨rfl, rfl⟩ := ByteResult.next.inj h
          exact hlf ▸ .afterLf
        · cases h
  | afterDataAlmostDone =>
      obtain ⟨rfl, rfl, rfl⟩ := lineFeed_next h
      exact .afterDone
  | lastChunkExtension =>
      obtain ⟨rfl, ⟨rfl, rfl⟩ | ⟨rfl, rfl⟩ | ⟨hcr, hlf, rfl⟩⟩ := skipByte_next h
      · exact .lastExtensionCr
      · exact .lastExtensionLf
      · exact .lastExtension hcr hlf
  | lastChunkExtensionAlmostDone =>
      obtain ⟨rfl, rfl, rfl⟩ := lineFeed_next h
      exact .lastExtensionDone
  | trailer =>
      rw [chunkedByte] at h
      split at h
      · rename_i hcr
        obtain ⟨rfl, rfl⟩ := ByteResult.next.inj h
        exact hcr ▸ .trailerCr
      · rename_i hcr
        split at h
        · cases h
        · rename_i hlf
          obtain ⟨rfl, rfl⟩ := ByteResult.next.inj h
          exact .trailerHeader hcr hlf
  | trailerAlmostDone =>
      rw [chunkedByte] at h
      split at h
      · cases h
      · cases h
  | trailerHeader =>
      obtain ⟨rfl, ⟨rfl, rfl⟩ | ⟨rfl, rfl⟩ | ⟨hcr, hlf, rfl⟩⟩ := skipByte_next h
      · exact .headerCr
      · exact .headerLf
      · exact .header hcr hlf
  | trailerHeaderAlmostDone =>
      obtain ⟨rfl, rfl, rfl⟩ := lineFeed_next h
      exact .headerDone

/-- The states in which a body or a run of data does not begin to end. -/
theorem chunkedByte_skips {state : ChunkedState} {size : ℕ} {ch : UInt8} (hdata : state ≠ .chunkData)
    (htrailer : state ≠ .trailer) (htrailer' : state ≠ .trailerAlmostDone) :
    chunkedByte state size ch = .invalid ∨ ∃ state' size', chunkedByte state size ch = .next state' size' := by
  have hskip : ∀ here almostDone behind, ∃ state' size', skipByte here almostDone behind size ch = .next state' size' := by
    intro here almostDone behind
    rw [skipByte]
    split
    · exact ⟨_, _, rfl⟩
    · split
      · exact ⟨_, _, rfl⟩
      · exact ⟨_, _, rfl⟩
  have hfeed : ∀ behind, lineFeed behind size ch = .invalid ∨ ∃ state' size', lineFeed behind size ch = .next state' size' := by
    intro behind
    rw [lineFeed]
    split
    · exact Or.inr ⟨_, _, rfl⟩
    · exact Or.inl rfl
  cases state with
  | chunkStart =>
      rw [chunkedByte]
      split
      · exact Or.inr ⟨_, _, rfl⟩
      · exact Or.inl rfl
  | chunkSize =>
      rw [chunkedByte]
      split
      · exact Or.inl rfl
      · split
        · exact Or.inr ⟨_, _, rfl⟩
        · split_ifs
          all_goals first
            | exact Or.inl rfl
            | exact Or.inr ⟨_, _, rfl⟩
  | chunkExtension => exact Or.inr (hskip ..)
  | chunkExtensionAlmostDone => exact hfeed _
  | chunkData => exact absurd rfl hdata
  | afterData =>
      rw [chunkedByte]
      split
      · exact Or.inr ⟨_, _, rfl⟩
      · split
        · exact Or.inr ⟨_, _, rfl⟩
        · exact Or.inl rfl
  | afterDataAlmostDone => exact hfeed _
  | lastChunkExtension => exact Or.inr (hskip ..)
  | lastChunkExtensionAlmostDone => exact hfeed _
  | trailer => exact absurd rfl htrailer
  | trailerAlmostDone => exact absurd rfl htrailer'
  | trailerHeader => exact Or.inr (hskip ..)
  | trailerHeaderAlmostDone => exact hfeed _

/-- The last byte of a body. -/
theorem chunkedByte_done {state : ChunkedState} {size : ℕ} {ch : UInt8} (h : chunkedByte state size ch = .done) :
    (state = .trailer ∨ state = .trailerAlmostDone) ∧ ch = lf := by
  by_cases hdata : state = .chunkData
  · subst hdata
    cases h
  · by_cases htrailer : state = .trailer
    · subst htrailer
      rw [chunkedByte] at h
      split_ifs at h with hcr hlf
      exact ⟨Or.inl rfl, hlf⟩
    · by_cases htrailer' : state = .trailerAlmostDone
      · subst htrailer'
        rw [chunkedByte] at h
        split_ifs at h with hlf
        exact ⟨Or.inr rfl, hlf⟩
      · rcases chunkedByte_skips hdata htrailer htrailer' with hinvalid | ⟨state', size', hnext⟩
        · rw [hinvalid] at h
          cases h
        · rw [hnext] at h
          cases h

theorem chunkedByte_data {state : ChunkedState} {size : ℕ} {ch : UInt8} (h : chunkedByte state size ch = .data) :
    state = .chunkData := by
  by_contra hdata
  by_cases htrailer : state = .trailer
  · subst htrailer
    rw [chunkedByte] at h
    split_ifs at h
  · by_cases htrailer' : state = .trailerAlmostDone
    · subst htrailer'
      rw [chunkedByte] at h
      split_ifs at h
    · rcases chunkedByte_skips hdata htrailer htrailer' with hinvalid | ⟨state', size', hnext⟩
      · rw [hinvalid] at h
        cases h
      · rw [hnext] at h
        cases h

/-! ### The states -/

/-- What holds of every state that is reached: the size is not too large, and there is data left of a chunk with data. -/
structure Sound (state : ChunkedState) (size : ℕ) : Prop where
  max : size ≤ maxOffT
  small : state ≠ .chunkSize → size ≤ maxOffT / 16
  extension : state = .chunkExtension ∨ state = .chunkExtensionAlmostDone → 0 < size

/-- In a call of the parser there is also data left in front of data. -/
structure Inside (state : ChunkedState) (size : ℕ) : Prop extends Sound state size where
  data : state = .chunkData → 0 < size

theorem hexDigit_lt {ch : UInt8} {d : ℕ} (h : hexDigit ch = some d) : d < 16 := by
  rw [hexDigit] at h
  split at h
  · rename_i hdigit
    obtain ⟨hlow, hhigh⟩ := hdigit
    obtain rfl := Option.some.inj h
    have hle := UInt8.le_iff_toNat_le.mp hhigh
    have hge := UInt8.le_iff_toNat_le.mp hlow
    rw [UInt8.toNat_sub_of_le _ _ hlow]
    simp only [UInt8.reduceToNat] at hle hge ⊢
    omega
  · dsimp only at h
    split at h
    · rename_i hletter
      obtain ⟨hlow, hhigh⟩ := hletter
      obtain rfl := Option.some.inj h
      have hle := UInt8.le_iff_toNat_le.mp hhigh
      have hge := UInt8.le_iff_toNat_le.mp hlow
      rw [UInt8.toNat_sub_of_le _ _ hlow]
      simp only [UInt8.reduceToNat] at hle hge ⊢
      omega
    · cases h

theorem sound_enter {state : ChunkedState} {size : ℕ} (h : Sound state size) : Inside (enter state size) size := by
  rw [enter]
  split
  · rename_i hand
    exact ⟨⟨h.max, fun _ => by rw [hand.2]; exact Nat.zero_le _, fun hor => by simp at hor⟩, fun heq => by cases heq⟩
  · rename_i hnot
    exact ⟨h, fun hdata => Nat.pos_of_ne_zero fun hzero => hnot ⟨hdata, hzero⟩⟩

/-- A size within a sixteenth of the greatest one, and one digit more. -/
theorem digit_le {size d : ℕ} (hsize : size ≤ maxOffT / 16) (hd : d < 16) : size * 16 + d ≤ maxOffT := by
  rw [maxOffT] at *
  omega

/-- A byte keeps it so. -/
theorem Inside.step {state state' : ChunkedState} {size size' : ℕ} {ch : UInt8} (h : Inside state size)
    (hstep : Step state size ch state' size') : Inside state' size' := by
  have hlarge : maxOffT / 16 ≤ maxOffT := Nat.div_le_self _ _
  cases hstep with
  | first hd =>
      have hlt := hexDigit_lt hd
      have hle : size' ≤ maxOffT := by
        rw [maxOffT]
        omega
      exact ⟨⟨hle, fun hne => absurd rfl hne, fun hor => by simp at hor⟩, fun heq => by cases heq⟩
  | digit hsize hd =>
      exact ⟨⟨digit_le hsize (hexDigit_lt hd), fun hne => absurd rfl hne, fun hor => by simp at hor⟩, fun heq => by cases heq⟩
  | lastCr | lastLf | lastSeparator =>
      exact ⟨⟨Nat.zero_le _, fun _ => Nat.zero_le _, fun hor => by simp at hor⟩, fun heq => by cases heq⟩
  | sizeCr hpos hsize | sizeLf hpos hsize | sizeSeparator hpos hsize =>
      exact ⟨⟨h.max, fun _ => hsize, fun _ => hpos⟩, fun _ => hpos⟩
  | extension | extensionCr =>
      exact ⟨⟨h.max, fun _ => h.small (by decide), fun _ => h.extension (by decide)⟩, fun heq => by cases heq⟩
  | extensionLf | extensionDone =>
      exact ⟨⟨h.max, fun _ => h.small (by decide), fun hor => by simp at hor⟩, fun _ => h.extension (by decide)⟩
  | afterCr | afterLf | afterDone | lastExtension | lastExtensionCr | lastExtensionLf | lastExtensionDone | trailerCr |
    trailerHeader | header | headerCr | headerLf | headerDone =>
      exact ⟨⟨h.max, fun _ => h.small (by decide), fun hor => by simp at hor⟩, fun heq => by cases heq⟩

/-! ### Streams from a state -/

theorem Inside.enter {state : ChunkedState} {size : ℕ} (h : Inside state size) : enter state size = state :=
  if_neg fun hand => absurd hand.2 (h.data hand.1).ne'

theorem enter_enter (state : ChunkedState) (size : ℕ) : enter (enter state size) size = enter state size := by
  by_cases h : state = .chunkData ∧ size = 0
  · have hafter : enter state size = .afterData := if_pos h
    rw [hafter]
    rfl
  · have hsame : enter state size = state := if_neg h
    rw [hsame, hsame]

theorem decode_enter (conf : Conf) (state : ChunkedState) (size : ℕ) (n : ℤ) (w : List UInt8) :
    decode conf (enter state size) size n w = decode conf state size n w := by
  cases w with
  | nil => rw [decode, decode, enter_enter]
  | cons ch w => rw [decode, decode, enter_enter]

/-- A size that is too large to go on with. -/
theorem decode_large {conf : Conf} {state : ChunkedState} {size : ℕ} {n : ℤ} (h : Inside state size)
    (hlarge : maxOffT - 5 < size) (w : List UInt8) : decode conf state size n w = .invalid := by
  have hsize : maxOffT / 16 < size := by
    rw [maxOffT] at *
    omega
  have hstate : state = .chunkSize := by
    by_contra hne
    exact absurd (h.small hne) (not_le.mpr hsize)
  subst hstate
  cases w with
  | nil => rw [decode, if_pos hlarge]
  | cons ch w =>
      rw [decode, h.enter, chunkedByte, if_pos hsize]

/-- The data of a chunk, as far as it goes. -/
theorem decode_data {conf : Conf} {size : ℕ} {n : ℤ} (hsize : size ≤ maxOffT / 16) (hlimit : ¬conf.Exceeded n size)
    {data : List UInt8} (hdata : data.length ≤ size) (w : List UInt8) :
    decode conf .chunkData size n (data ++ w) =
      (decode conf .chunkData (size - data.length) (n + data.length) w).after data := by
  induction data generalizing size n with
  | nil => rw [List.nil_append, List.length_nil, Nat.sub_zero, Nat.cast_zero, add_zero, Decoded.after_nil]
  | cons ch data ih =>
      rw [List.length_cons] at hdata ⊢
      have hpos : 0 < size := by omega
      have hinside : Inside .chunkData size :=
        ⟨⟨hsize.trans (Nat.div_le_self _ _), fun _ => hsize, fun _ => hpos⟩, fun _ => hpos⟩
      have hsmall : ¬size > maxOffT - 5 := by
        rw [maxOffT] at *
        omega
      have hlimit' : ¬conf.Exceeded (n + 1) (size - 1) := by
        rintro ⟨hne, hlt⟩
        exact hlimit ⟨hne, by omega⟩
      rw [List.cons_append, decode, hinside.enter, chunkedByte]
      dsimp only
      rw [if_neg hsmall, if_neg hlimit, ih (by omega) hlimit' (by omega), Decoded.after_after, List.singleton_append]
      have hsub : size - 1 - data.length = size - (data.length + 1) := by omega
      have hadd : n + 1 + (data.length : ℤ) = n + ((data.length + 1 : ℕ) : ℤ) := by push_cast; ring
      rw [hsub, hadd]

/-- A chunk that the limit does not allow. -/
theorem decode_exceeded {conf : Conf} {size : ℕ} {n : ℤ} (h : Inside .chunkData size) (hlimit : conf.Exceeded n size)
    {w : List UInt8} (hw : w ≠ []) : decode conf .chunkData size n w = .tooLarge := by
  have hsize := h.small (by decide)
  have hsmall : ¬size > maxOffT - 5 := by
    rw [maxOffT] at *
    omega
  cases w with
  | nil => exact absurd rfl hw
  | cons ch w =>
      rw [decode, h.enter, chunkedByte]
      dsimp only
      rw [if_neg hsmall, if_pos hlimit]

/-! ### The parser -/

/-- What the loop of the parser does with the bytes that it is given, whatever comes behind them. -/
inductive Parsed (conf : Conf) (n : ℤ) (mem : ℕ → UInt8) (left pos : ℕ) (state : ChunkedState) (size : ℕ) :
    Rc × ℕ × ChunkedState × ℕ → Prop where
  | again {state' : ChunkedState} {size' : ℕ} (inside : Inside state' size')
      (decode : ∀ w, decode conf state size n (bytes mem pos left ++ w) = decode conf state' size' n w) :
      Parsed conf n mem left pos state size (.again, pos + left, state', size')
  | ok {k size' : ℕ} (lt : k < left) (inside : Inside .chunkData size')
      (decode : ∀ w, decode conf state size n (bytes mem pos left ++ w) =
        decode conf .chunkData size' n (bytes mem (pos + k) (left - k) ++ w)) :
      Parsed conf n mem left pos state size (.ok, pos + k, .chunkData, size')
  | done {k size' : ℕ} {state' : ChunkedState} (lt : k < left)
      (decode : ∀ w, decode conf state size n (bytes mem pos left ++ w) =
        .done (bytes mem (pos + k + 1) (left - k - 1) ++ w) n []) :
      Parsed conf n mem left pos state size (.done, pos + k, state', size')
  | error {pos' size' : ℕ} {state' : ChunkedState}
      (decode : ∀ w, decode conf state size n (bytes mem pos left ++ w) = .invalid) :
      Parsed conf n mem left pos state size (.error, pos', state', size')

theorem parseLoop_parsed (conf : Conf) (n : ℤ) (mem : ℕ → UInt8) {left pos : ℕ} {state : ChunkedState} {size : ℕ}
    (h : Inside state size) : Parsed conf n mem left pos state size (parseLoop mem left pos state size) := by
  induction left generalizing pos state size with
  | zero => exact .again h fun w => rfl
  | succ left ih =>
      have hdecode : ∀ w, decode conf state size n (bytes mem pos (left + 1) ++ w) =
          match chunkedByte state size (mem pos) with
          | .next state size => decode conf state size n (bytes mem (pos + 1) left ++ w)
          | .data =>
            if size > maxOffT - 5 then .invalid
            else if conf.Exceeded n size then .tooLarge
            else (decode conf .chunkData (size - 1) (n + 1) (bytes mem (pos + 1) left ++ w)).after [mem pos]
          | .done => .done (bytes mem (pos + 1) left ++ w) n []
          | .invalid => .invalid := fun w => by
        rw [bytes, List.cons_append, decode, h.enter]
      rw [parseLoop]
      cases hbyte : chunkedByte state size (mem pos) with
      | next state' size' =>
          have hrest := @ih (pos + 1) state' size' (h.step (step_of_next hbyte))
          simp only [hbyte] at hdecode
          dsimp only
          revert hrest
          generalize parseLoop mem left (pos + 1) state' size' = result
          intro hrest
          cases hrest with
          | again hinside hrest =>
              have hpos : pos + 1 + left = pos + (left + 1) := by omega
              rw [hpos]
              exact .again hinside fun w => (hdecode w).trans (hrest w)
          | @ok k size' hlt hinside hrest =>
              have hpos : pos + 1 + k = pos + (k + 1) := by omega
              have hleft : left - k = left + 1 - (k + 1) := by omega
              rw [hpos, hleft] at hrest
              rw [hpos]
              exact .ok (by omega) hinside fun w => (hdecode w).trans (hrest w)
          | @done k size' state' hlt hrest =>
              have hpos : pos + 1 + k = pos + (k + 1) := by omega
              have hleft : left - k - 1 = left + 1 - (k + 1) - 1 := by omega
              rw [hpos, hleft] at hrest
              rw [hpos]
              exact .done (by omega) fun w => (hdecode w).trans (hrest w)
          | error hrest => exact .error fun w => (hdecode w).trans (hrest w)
      | data =>
          have hdata := chunkedByte_data hbyte
          subst hdata
          exact .ok (Nat.succ_pos left) h fun w => rfl
      | done =>
          simp only [hbyte] at hdecode
          exact .done (Nat.succ_pos left) fun w => hdecode w
      | invalid =>
          simp only [hbyte] at hdecode
          exact .error fun w => hdecode w

/-- What a call of the parser does, whatever comes behind the buffer. -/
inductive ParsedCall (conf : Conf) (n : ℤ) (mem : ℕ → UInt8) (pos last : ℕ) (ctx : Chunked) : Rc × ℕ × Chunked → Prop where
  | again {state : ChunkedState} {size : ℕ} (inside : Inside state size) (small : size ≤ maxOffT - 5)
      (decode : ∀ w, decode conf ctx.state ctx.size n (bytes mem pos (last - pos) ++ w) = decode conf state size n w) :
      ParsedCall conf n mem pos last ctx (.again, pos + (last - pos), ⟨state, size, lengthOf state size⟩)
  | ok {k size : ℕ} (lt : k < last - pos) (inside : Inside .chunkData size)
      (decode : ∀ w, decode conf ctx.state ctx.size n (bytes mem pos (last - pos) ++ w) =
        decode conf .chunkData size n (bytes mem (pos + k) (last - (pos + k)) ++ w)) :
      ParsedCall conf n mem pos last ctx (.ok, pos + k, ⟨.chunkData, size, lengthOf .chunkData size⟩)
  | done {k : ℕ} {ctx' : Chunked} (lt : k < last - pos)
      (decode : ∀ w, decode conf ctx.state ctx.size n (bytes mem pos (last - pos) ++ w) =
        .done (bytes mem (pos + k + 1) (last - (pos + k + 1)) ++ w) n []) :
      ParsedCall conf n mem pos last ctx (.done, pos + k + 1, ctx')
  | error {pos' : ℕ} {ctx' : Chunked}
      (decode : ∀ w, decode conf ctx.state ctx.size n (bytes mem pos (last - pos) ++ w) = .invalid) :
      ParsedCall conf n mem pos last ctx (.error, pos', ctx')

theorem ngxHttpParseChunked_parsed (conf : Conf) (n : ℤ) (mem : ℕ → UInt8) (pos last : ℕ) {ctx : Chunked}
    (h : Sound ctx.state ctx.size) :
    ParsedCall conf n mem pos last ctx (ngxHttpParseChunked mem pos last ctx) := by
  have hparsed := @parseLoop_parsed conf n mem (last - pos) pos _ _ (sound_enter h)
  rw [ngxHttpParseChunked]
  revert hparsed
  generalize parseLoop mem (last - pos) pos (enter ctx.state ctx.size) ctx.size = result
  intro hparsed
  cases hparsed with
  | again hinside hdecode =>
      rename_i state size
      dsimp only
      by_cases hlarge : size > maxOffT - 5
      · rw [if_pos hlarge]
        exact .error fun w => (decode_enter ..).symm.trans ((hdecode w).trans (decode_large hinside hlarge w))
      · rw [if_neg hlarge]
        exact .again hinside (not_lt.mp hlarge) fun w => (decode_enter ..).symm.trans (hdecode w)
  | ok hlt hinside hdecode =>
      rename_i k size
      have hsmall := hinside.small (by decide)
      have hlarge : ¬size > maxOffT - 5 := by
        rw [maxOffT] at *
        omega
      dsimp only
      rw [if_neg hlarge]
      have hleft : last - pos - k = last - (pos + k) := by omega
      rw [hleft] at hdecode
      exact .ok hlt hinside fun w => (decode_enter ..).symm.trans (hdecode w)
  | done hlt hdecode =>
      rename_i k size state
      have hleft : last - pos - k - 1 = last - (pos + k + 1) := by omega
      rw [hleft] at hdecode
      exact .done hlt fun w => (decode_enter ..).symm.trans (hdecode w)
  | error hdecode => exact .error fun w => (decode_enter ..).symm.trans (hdecode w)

/-! ### Streams in pieces -/

/-- The stream behind what has been decoded. -/
def Decoded.andThen (conf : Conf) (w : List UInt8) : Decoded → Decoded
  | .again state size n data => (decode conf state size n w).after data
  | .done rest n data => .done (rest ++ w) n data
  | .invalid => .invalid
  | .tooLarge => .tooLarge

theorem Decoded.andThen_after (conf : Conf) (w data : List UInt8) (d : Decoded) :
    (d.after data).andThen conf w = (d.andThen conf w).after data := by
  cases d with
  | again state size n more => exact (Decoded.after_after _ data more).symm
  | done rest n more => rfl
  | invalid => rfl
  | tooLarge => rfl

theorem Sound.sub {size : ℕ} (h : Sound .chunkData size) (n : ℕ) : Sound .chunkData (size - n) :=
  ⟨(Nat.sub_le _ _).trans h.max, fun hne => (Nat.sub_le _ _).trans (h.small hne), fun hor => by simp at hor⟩

theorem decode_append (conf : Conf) {state : ChunkedState} {size : ℕ} (h : Sound state size) (n : ℤ) (w₁ w₂ : List UInt8) :
    decode conf state size n (w₁ ++ w₂) = (decode conf state size n w₁).andThen conf w₂ := by
  induction w₁ generalizing state size n with
  | nil =>
      rw [List.nil_append, decode]
      by_cases hlarge : size > maxOffT - 5
      · rw [if_pos hlarge, ← decode_enter, decode_large (sound_enter h) hlarge]
        rfl
      · rw [if_neg hlarge, ← decode_enter]
        exact (Decoded.after_nil _).symm
  | cons ch w₁ ih =>
      have hinside := sound_enter h
      rw [List.cons_append, decode, decode]
      cases hbyte : chunkedByte (enter state size) size ch with
      | next state' size' => exact ih (hinside.step (step_of_next hbyte)).toSound n
      | data =>
          dsimp only
          have hdata := hinside.toSound
          rw [chunkedByte_data hbyte] at hdata
          by_cases hlarge : size > maxOffT - 5
          · rw [if_pos hlarge, if_pos hlarge]
            rfl
          · rw [if_neg hlarge, if_neg hlarge]
            by_cases hlimit : conf.Exceeded n size
            · rw [if_pos hlimit, if_pos hlimit]
              rfl
            · rw [if_neg hlimit, if_neg hlimit, ih (hdata.sub 1), Decoded.andThen_after]
      | done => rfl
      | invalid => rfl

end NginxDtls.ChunkedBody
