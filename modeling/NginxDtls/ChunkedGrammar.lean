import NginxDtls.ChunkedDecode

/-! What a chunked body is, without the states of the parser, and that the parser accepts nothing else and all of it. -/

namespace NginxDtls.ChunkedBody

/-! ### Bodies -/

/-- The end of a line. -/
inductive Eol : List UInt8 → Prop where
  | lf : Eol [lf]
  | crlf : Eol [cr, lf]

/-- What is left of a line, with its end. -/
def Line (w : List UInt8) : Prop := ∃ text eol, w = text ++ eol ∧ (∀ ch ∈ text, ch ≠ cr ∧ ch ≠ lf) ∧ Eol eol

/-- The end of the line of a size, which may have an extension. -/
def AfterSize (w : List UInt8) : Prop := Eol w ∨ ∃ ch line, w = ch :: line ∧ isSeparator ch = true ∧ Line line

/-- The lines behind the last chunk, up to an empty one. -/
inductive Trailer : List UInt8 → Prop where
  | last {eol : List UInt8} (h : Eol eol) : Trailer eol
  | header {ch : UInt8} {line w : List UInt8} (hcr : ch ≠ cr) (hlf : ch ≠ lf) (hline : Line line) (h : Trailer w) :
      Trailer (ch :: (line ++ w))

/-- Hexadecimal digits behind a number. -/
def Digits (before : ℕ) (digits : List UInt8) (size : ℕ) : Prop :=
  ∃ ds, List.Forall₂ (fun ch d => hexDigit ch = some d) digits ds ∧ size = ds.foldl (fun size d => size * 16 + d) before

/-- A body and the data of its chunks. A chunk is shorter than `2 ^ 59` bytes. -/
inductive Body : List UInt8 → List UInt8 → Prop where
  | last {digits line trailer : List UInt8} (hne : digits ≠ []) (hdigits : Digits 0 digits 0) (hline : AfterSize line)
      (htrailer : Trailer trailer) : Body (digits ++ (line ++ trailer)) []
  | chunk {digits line data eol w more : List UInt8} (hne : digits ≠ []) (hdigits : Digits 0 digits data.length)
      (hpos : data ≠ []) (hsize : data.length ≤ maxOffT / 16) (hline : AfterSize line) (heol : Eol eol) (h : Body w more) :
      Body (digits ++ (line ++ (data ++ (eol ++ w)))) (data ++ more)

/-! ### What is left of a body -/

/-- The data of a chunk and what follows. -/
def ChunkEnd (size : ℕ) (w data : List UInt8) : Prop :=
  ∃ chunk eol u more, w = chunk ++ (eol ++ u) ∧ data = chunk ++ more ∧ chunk.length = size ∧ Eol eol ∧ Body u more

/-- What follows the digits of a size. -/
def SizeEnd (size : ℕ) (w data : List UInt8) : Prop :=
  ∃ line u, w = line ++ u ∧ AfterSize line ∧
    (size = 0 ∧ Trailer u ∧ data = [] ∨ 0 < size ∧ size ≤ maxOffT / 16 ∧ ChunkEnd size u data)

/-- The rest of a body in each state of the parser. -/
def Residual (state : ChunkedState) (size : ℕ) (w data : List UInt8) : Prop :=
  match state with
  | .chunkStart => Body w data
  | .chunkSize => ∃ digits u size', w = digits ++ u ∧ Digits size digits size' ∧ SizeEnd size' u data
  | .chunkExtension => ∃ line u, w = line ++ u ∧ Line line ∧ ChunkEnd size u data
  | .chunkExtensionAlmostDone => ∃ u, w = lf :: u ∧ ChunkEnd size u data
  | .chunkData => ChunkEnd size w data
  | .afterData => ChunkEnd 0 w data
  | .afterDataAlmostDone => ∃ u, w = lf :: u ∧ Body u data
  | .lastChunkExtension | .trailerHeader => data = [] ∧ ∃ line u, w = line ++ u ∧ Line line ∧ Trailer u
  | .lastChunkExtensionAlmostDone | .trailerHeaderAlmostDone => data = [] ∧ ∃ u, w = lf :: u ∧ Trailer u
  | .trailer => data = [] ∧ Trailer w
  | .trailerAlmostDone => data = [] ∧ w = [lf]

theorem Line.cons {ch : UInt8} {w : List UInt8} (hcr : ch ≠ cr) (hlf : ch ≠ lf) (h : Line w) : Line (ch :: w) := by
  obtain ⟨text, eol, rfl, htext, heol⟩ := h
  refine ⟨ch :: text, eol, rfl, fun c hc => ?_, heol⟩
  rcases List.mem_cons.mp hc with rfl | hc
  · exact ⟨hcr, hlf⟩
  · exact htext c hc

theorem Eol.line {w : List UInt8} (h : Eol w) : Line w := ⟨[], w, rfl, List.forall_mem_nil _, h⟩

theorem Digits.nil (size : ℕ) : Digits size [] size := ⟨[], .nil, rfl⟩

theorem Digits.cons {before size d : ℕ} {ch : UInt8} {digits : List UInt8} (hd : hexDigit ch = some d)
    (h : Digits (before * 16 + d) digits size) : Digits before (ch :: digits) size := by
  obtain ⟨ds, hds, rfl⟩ := h
  exact ⟨d :: ds, .cons hd hds, rfl⟩

/-- A number does not become less with more digits. -/
theorem Digits.le {before size : ℕ} {digits : List UInt8} (h : Digits before digits size) : before ≤ size := by
  obtain ⟨ds, -, rfl⟩ := h
  have hfold : ∀ before, before ≤ ds.foldl (fun size d => size * 16 + d) before := by
    induction ds with
    | nil => exact le_refl
    | cons d ds ih =>
        intro before
        exact (show before ≤ before * 16 + d by omega).trans (ih _)
  exact hfold before

/-- The first digit and the ones behind it are those of a body. -/
theorem body_of_residual {ch : UInt8} {d : ℕ} {w data : List UInt8} (hd : hexDigit ch = some d)
    (h : Residual .chunkSize d w data) : Body (ch :: w) data := by
  obtain ⟨digits, u, size, rfl, hdigits, line, u, rfl, hline, ⟨rfl, htrailer, rfl⟩ | ⟨hpos, hsize, hchunk⟩⟩ := h
  · have hfirst : Digits 0 (ch :: digits) 0 := Digits.cons hd (by rwa [Nat.zero_mul, Nat.zero_add])
    exact Body.last (List.cons_ne_nil ch digits) hfirst hline htrailer
  · obtain ⟨chunk, eol, u, more, rfl, rfl, rfl, heol, hbody⟩ := hchunk
    have hfirst : Digits 0 (ch :: digits) chunk.length := Digits.cons hd (by rwa [Nat.zero_mul, Nat.zero_add])
    exact Body.chunk (List.cons_ne_nil ch digits) hfirst (List.length_pos_iff.mp hpos) hsize hline heol hbody

/-- A byte with which the parser goes on, in front of the rest of a body. -/
theorem Residual.step {state state' : ChunkedState} {size size' : ℕ} {ch : UInt8} {w data : List UInt8}
    (hstep : Step state size ch state' size') (h : Residual state' size' w data) : Residual state size (ch :: w) data := by
  cases hstep with
  | first hd => exact body_of_residual hd h
  | digit hsize hd =>
      obtain ⟨digits, u, size', rfl, hdigits, hend⟩ := h
      exact ⟨ch :: digits, u, size', rfl, hdigits.cons hd, hend⟩
  | lastCr =>
      obtain ⟨rfl, u, rfl, htrailer⟩ := h
      exact ⟨[], _, 0, rfl, Digits.nil 0, [cr, lf], u, rfl, Or.inl .crlf, Or.inl ⟨rfl, htrailer, rfl⟩⟩
  | lastLf =>
      obtain ⟨rfl, htrailer⟩ := h
      exact ⟨[], _, 0, rfl, Digits.nil 0, [lf], w, rfl, Or.inl .lf, Or.inl ⟨rfl, htrailer, rfl⟩⟩
  | lastSeparator hsep =>
      obtain ⟨rfl, line, u, rfl, hline, htrailer⟩ := h
      exact ⟨[], _, 0, rfl, Digits.nil 0, ch :: line, u, rfl, Or.inr ⟨ch, line, rfl, hsep, hline⟩,
        Or.inl ⟨rfl, htrailer, rfl⟩⟩
  | sizeCr hpos hsize =>
      obtain ⟨u, rfl, hchunk⟩ := h
      exact ⟨[], _, size, rfl, Digits.nil size, [cr, lf], u, rfl, Or.inl .crlf, Or.inr ⟨hpos, hsize, hchunk⟩⟩
  | sizeLf hpos hsize =>
      exact ⟨[], _, size, rfl, Digits.nil size, [lf], w, rfl, Or.inl .lf, Or.inr ⟨hpos, hsize, h⟩⟩
  | sizeSeparator hpos hsize hsep =>
      obtain ⟨line, u, rfl, hline, hchunk⟩ := h
      exact ⟨[], _, size, rfl, Digits.nil size, ch :: line, u, rfl, Or.inr ⟨ch, line, rfl, hsep, hline⟩,
        Or.inr ⟨hpos, hsize, hchunk⟩⟩
  | extension hcr hlf =>
      obtain ⟨line, u, rfl, hline, hchunk⟩ := h
      exact ⟨ch :: line, u, rfl, hline.cons hcr hlf, hchunk⟩
  | extensionCr =>
      obtain ⟨u, rfl, hchunk⟩ := h
      exact ⟨[cr, lf], u, rfl, Eol.crlf.line, hchunk⟩
  | extensionLf => exact ⟨[lf], w, rfl, Eol.lf.line, h⟩
  | extensionDone => exact ⟨w, rfl, h⟩
  | afterCr =>
      obtain ⟨u, rfl, hbody⟩ := h
      exact ⟨[], [cr, lf], u, data, rfl, rfl, rfl, .crlf, hbody⟩
  | afterLf => exact ⟨[], [lf], w, data, rfl, rfl, rfl, .lf, h⟩
  | afterDone => exact ⟨w, rfl, h⟩
  | lastExtension hcr hlf | header hcr hlf =>
      obtain ⟨rfl, line, u, rfl, hline, htrailer⟩ := h
      exact ⟨rfl, ch :: line, u, rfl, hline.cons hcr hlf, htrailer⟩
  | lastExtensionCr | headerCr =>
      obtain ⟨rfl, u, rfl, htrailer⟩ := h
      exact ⟨rfl, [cr, lf], u, rfl, Eol.crlf.line, htrailer⟩
  | lastExtensionLf | headerLf =>
      obtain ⟨rfl, htrailer⟩ := h
      exact ⟨rfl, [lf], w, rfl, Eol.lf.line, htrailer⟩
  | lastExtensionDone | headerDone =>
      obtain ⟨rfl, htrailer⟩ := h
      exact ⟨rfl, w, rfl, htrailer⟩
  | trailerCr =>
      obtain ⟨rfl, rfl⟩ := h
      exact ⟨rfl, .last .crlf⟩
  | trailerHeader hcr hlf =>
      obtain ⟨rfl, line, u, rfl, hline, htrailer⟩ := h
      exact ⟨rfl, .header hcr hlf hline htrailer⟩

/-- A byte of the data of a chunk. -/
theorem Residual.data {size : ℕ} {ch : UInt8} {w data : List UInt8} (hsize : 0 < size)
    (h : Residual (enter .chunkData (size - 1)) (size - 1) w data) : Residual .chunkData size (ch :: w) (ch :: data) := by
  have hchunk : ChunkEnd (size - 1) w data := by
    rw [enter] at h
    split at h
    · rename_i hand
      rw [hand.2]
      exact h
    · exact h
  obtain ⟨chunk, eol, u, more, rfl, rfl, hlength, heol, hbody⟩ := hchunk
  exact ⟨ch :: chunk, eol, u, more, rfl, rfl, by rw [List.length_cons]; omega, heol, hbody⟩

/-- Where a stream has come to an end, the rest of a body has been read. -/
theorem residual_of_decode {conf : Conf} {state : ChunkedState} {size : ℕ} {n n' : ℤ} {w rest data : List UInt8}
    (hsound : Sound state size) (h : decode conf state size n w = .done rest n' data) :
    n' = n + data.length ∧ ∃ u, w = u ++ rest ∧ Residual (enter state size) size u data := by
  induction w generalizing state size n data with
  | nil =>
      rw [decode] at h
      split at h
      · cases h
      · cases h
  | cons ch w ih =>
      have hinside := sound_enter hsound
      rw [decode] at h
      cases hbyte : chunkedByte (enter state size) size ch with
      | next state' size' =>
          rw [hbyte] at h
          have hstep := step_of_next hbyte
          have hinside' := hinside.step hstep
          obtain ⟨hn, u, rfl, hresidual⟩ := ih hinside'.toSound h
          rw [hinside'.enter] at hresidual
          exact ⟨hn, ch :: u, rfl, hresidual.step hstep⟩
      | data =>
          have hdata := chunkedByte_data hbyte
          rw [hdata] at hinside
          rw [hbyte] at h
          dsimp only at h
          split_ifs at h with hlarge hlimit
          revert h
          cases hmore : decode conf .chunkData (size - 1) (n + 1) w with
          | done rest' n'' data' =>
              intro h
              obtain ⟨rfl, rfl, rfl⟩ := Decoded.done.inj h
              obtain ⟨hn, u, rfl, hresidual⟩ := ih (hinside.toSound.sub 1) hmore
              refine ⟨?_, ch :: u, rfl, ?_⟩
              · rw [hn, List.length_append, List.length_singleton]
                push_cast
                ring
              · rw [hdata]
                exact hresidual.data (hinside.data rfl)
          | again state' size' n'' data' =>
              intro h
              cases h
          | invalid =>
              intro h
              cases h
          | tooLarge =>
              intro h
              cases h
      | done =>
          rw [hbyte] at h
          obtain ⟨rfl, rfl, rfl⟩ := Decoded.done.inj h
          obtain ⟨hstate, rfl⟩ := chunkedByte_done hbyte
          refine ⟨by rw [List.length_nil, Nat.cast_zero, add_zero], [lf], rfl, ?_⟩
          rcases hstate with hstate | hstate
          · rw [hstate]
            exact ⟨rfl, .last .lf⟩
          · rw [hstate]
            exact ⟨rfl, rfl⟩
      | invalid =>
          rw [hbyte] at h
          cases h

/-! ### All bodies are accepted -/

/-- The limit of the body allows some data. -/
def Conf.Allows (conf : Conf) (n : ℤ) : Prop := conf.clientMaxBodySize = 0 ∨ n ≤ conf.clientMaxBodySize

theorem decode_next {conf : Conf} {state state' : ChunkedState} {size size' : ℕ} {ch : UInt8} (n : ℤ) (w : List UInt8)
    (henter : enter state size = state) (h : chunkedByte state size ch = .next state' size') :
    decode conf state size n (ch :: w) = decode conf state' size' n w := by
  rw [decode, henter, h]

/-- The end of a line in a state that waits for it. -/
theorem decode_eol {conf : Conf} {state : ChunkedState} (almostDone behind : ChunkedState) {size : ℕ} {n : ℤ}
    {eol w : List UInt8} (heol : Eol eol) (henter : enter state size = state) (henter' : enter almostDone size = almostDone)
    (hcr : chunkedByte state size cr = .next almostDone size) (hlf : chunkedByte state size lf = .next behind size)
    (hfeed : ∀ ch, chunkedByte almostDone size ch = lineFeed behind size ch) :
    decode conf state size n (eol ++ w) = decode conf behind size n w := by
  cases heol with
  | lf => exact decode_next n w henter hlf
  | crlf =>
      rw [List.cons_append, decode_next n _ henter hcr]
      exact decode_next n w henter' ((hfeed lf).trans (if_pos rfl))

/-- The rest of a line that is skipped. -/
theorem decode_line {conf : Conf} {state : ChunkedState} (almostDone : ChunkedState) {behind : ChunkedState} {size : ℕ} {n : ℤ}
    {line w : List UInt8} (hline : Line line) (henter : enter state size = state) (henter' : enter almostDone size = almostDone)
    (hskip : ∀ ch, chunkedByte state size ch = skipByte state almostDone behind size ch)
    (hfeed : ∀ ch, chunkedByte almostDone size ch = lineFeed behind size ch) :
    decode conf state size n (line ++ w) = decode conf behind size n w := by
  obtain ⟨text, eol, rfl, htext, heol⟩ := hline
  induction text with
  | nil =>
      have hlf : skipByte state almostDone behind size lf = .next behind size := by
        rw [skipByte, if_neg (by decide), if_pos rfl]
      exact decode_eol almostDone behind heol henter henter' ((hskip cr).trans (if_pos rfl)) ((hskip lf).trans hlf) hfeed
  | cons ch text ih =>
      obtain ⟨hcr, hlf⟩ := htext ch List.mem_cons_self
      have hnext : chunkedByte state size ch = .next state size := by rw [hskip, skipByte, if_neg hcr, if_neg hlf]
      rw [List.cons_append, List.cons_append, decode_next n _ henter hnext]
      exact ih fun c hc => htext c (List.mem_cons_of_mem ch hc)

theorem decode_trailer {conf : Conf} {n : ℤ} {trailer : List UInt8} (h : Trailer trailer) (w : List UInt8) :
    decode conf .trailer 0 n (trailer ++ w) = .done w n [] := by
  induction h with
  | last heol =>
      cases heol with
      | lf => rfl
      | crlf => rfl
  | @header ch line u hcr hlf hline h ih =>
      have hnext : chunkedByte .trailer 0 ch = .next .trailerHeader 0 := by rw [chunkedByte, if_neg hcr, if_neg hlf]
      rw [List.cons_append, List.append_assoc, decode_next n _ rfl hnext,
        decode_line .trailerHeaderAlmostDone hline rfl rfl (fun _ => rfl) fun _ => rfl, ih]

/-- A separator is no digit and does not end a line. -/
theorem separator_other {ch : UInt8} (h : isSeparator ch = true) : hexDigit ch = none ∧ ch ≠ cr ∧ ch ≠ lf := by
  have hor : ch = 59 ∨ ch = 32 ∨ ch = 9 := by simpa [isSeparator] using h
  rcases hor with rfl | rfl | rfl
  · decide
  · decide
  · decide

/-- The end of the line of a size. -/
theorem decode_afterSize {conf : Conf} {size : ℕ} (n : ℤ) {line : List UInt8} (h : AfterSize line)
    (hsize : size ≤ maxOffT / 16) (w : List UInt8) :
    decode conf .chunkSize size n (line ++ w) = decode conf (if size = 0 then .trailer else .chunkData) size n w := by
  have hsmall : ¬size > maxOffT / 16 := not_lt.mpr hsize
  have henter : enter .chunkSize size = .chunkSize := if_neg fun hand => absurd hand.1 (by decide)
  have hcr : hexDigit cr = none := by decide
  have hlf : hexDigit lf = none := by decide
  by_cases hzero : size = 0
  · subst hzero
    rw [if_pos rfl]
    rcases h with heol | ⟨ch, line, rfl, hsep, hline⟩
    · cases heol with
      | lf => rfl
      | crlf => rfl
    · obtain ⟨hdigit, hncr, hnlf⟩ := separator_other hsep
      have hnext : chunkedByte .chunkSize 0 ch = .next .lastChunkExtension 0 := by
        rw [chunkedByte, if_neg hsmall, hdigit]
        dsimp only
        rw [if_pos rfl, if_neg hncr, if_neg hnlf, if_pos hsep]
      rw [List.cons_append, decode_next n _ henter hnext]
      exact decode_line .lastChunkExtensionAlmostDone hline rfl rfl (fun _ => rfl) fun _ => rfl
  · rw [if_neg hzero]
    have hnextCr : chunkedByte .chunkSize size cr = .next .chunkExtensionAlmostDone size := by
      rw [chunkedByte, if_neg hsmall, hcr]
      dsimp only
      rw [if_neg hzero, if_pos rfl]
    have hnextLf : chunkedByte .chunkSize size lf = .next .chunkData size := by
      rw [chunkedByte, if_neg hsmall, hlf]
      dsimp only
      rw [if_neg hzero, if_neg (by decide), if_pos rfl]
    have hdone : enter .chunkExtensionAlmostDone size = .chunkExtensionAlmostDone :=
      if_neg fun hand => absurd hand.1 (by decide)
    have hextension : enter .chunkExtension size = .chunkExtension := if_neg fun hand => absurd hand.1 (by decide)
    rcases h with heol | ⟨ch, line, rfl, hsep, hline⟩
    · exact decode_eol _ _ heol henter hdone hnextCr hnextLf fun _ => rfl
    · obtain ⟨hdigit, hncr, hnlf⟩ := separator_other hsep
      have hnext : chunkedByte .chunkSize size ch = .next .chunkExtension size := by
        rw [chunkedByte, if_neg hsmall, hdigit]
        dsimp only
        rw [if_neg hzero, if_neg hncr, if_neg hnlf, if_pos hsep]
      rw [List.cons_append, decode_next n _ henter hnext]
      exact decode_line .chunkExtensionAlmostDone hline hextension hdone (fun _ => rfl) fun _ => rfl

/-- The digits of a size behind the first one. -/
theorem decode_moreDigits {conf : Conf} (n : ℤ) {before size : ℕ} {digits : List UInt8} (h : Digits before digits size)
    (hsize : size ≤ maxOffT / 16) (w : List UInt8) :
    decode conf .chunkSize before n (digits ++ w) = decode conf .chunkSize size n w := by
  induction digits generalizing before with
  | nil =>
      obtain ⟨ds, hds, rfl⟩ := h
      cases hds
      rfl
  | cons ch digits ih =>
      have hbefore : ¬before > maxOffT / 16 := not_lt.mpr (h.le.trans hsize)
      obtain ⟨ds, hds, rfl⟩ := h
      cases hds with
      | @cons _ d _ ds hd hds =>
          have hnext : chunkedByte .chunkSize before ch = .next .chunkSize (before * 16 + d) := by
            rw [chunkedByte, if_neg hbefore, hd]
          rw [List.cons_append, decode_next n _ (if_neg fun hand => absurd hand.1 (by decide)) hnext]
          exact ih ⟨ds, hds, rfl⟩

theorem decode_digits {conf : Conf} (n : ℤ) {size : ℕ} {digits : List UInt8} (hne : digits ≠ []) (h : Digits 0 digits size)
    (hsize : size ≤ maxOffT / 16) (w : List UInt8) :
    decode conf .chunkStart 0 n (digits ++ w) = decode conf .chunkSize size n w := by
  obtain ⟨ds, hds, rfl⟩ := h
  cases hds with
  | nil => exact absurd rfl hne
  | @cons ch d digits ds hd hds =>
      have hnext : chunkedByte .chunkStart 0 ch = .next .chunkSize d := by rw [chunkedByte, hd]
      have hdigits : Digits d digits ((d :: ds).foldl (fun size d => size * 16 + d) 0) :=
        ⟨ds, hds, by rw [List.foldl_cons, Nat.zero_mul, Nat.zero_add]⟩
      rw [List.cons_append, decode_next n _ rfl hnext]
      exact decode_moreDigits n hdigits hsize w

/-- A body is decoded whatever follows it. -/
theorem decode_body {conf : Conf} {u data : List UInt8} (h : Body u data) {n : ℤ} (hlimit : conf.Allows (n + data.length))
    (w : List UInt8) : decode conf .chunkStart 0 n (u ++ w) = .done w (n + data.length) data := by
  induction h generalizing n with
  | @last digits line trailer hne hdigits hline htrailer =>
      rw [List.append_assoc, List.append_assoc, decode_digits n hne hdigits (Nat.zero_le _),
        decode_afterSize n hline (Nat.zero_le _), if_pos rfl, decode_trailer htrailer, List.length_nil, Nat.cast_zero, add_zero]
  | @chunk digits line data eol u more hne hdigits hpos hsize hline heol h ih =>
      have hzero : data.length ≠ 0 := fun hzero => hpos (List.length_eq_zero_iff.mp hzero)
      have hsum : n + (data.length : ℤ) + more.length = n + (data ++ more).length := by
        rw [List.length_append]
        push_cast
        ring
      have hexceeded : ¬conf.Exceeded n data.length := by
        rintro ⟨hne, hlt⟩
        rcases hlimit with hunlimited | hle
        · exact hne hunlimited
        · rw [← hsum] at hle
          omega
      rw [← hsum] at hlimit
      rw [List.append_assoc, List.append_assoc, List.append_assoc, List.append_assoc, decode_digits n hne hdigits hsize,
        decode_afterSize n hline hsize, if_neg hzero, decode_data hsize hexceeded (le_refl _), Nat.sub_self,
        ← decode_enter, decode_eol .afterDataAlmostDone .chunkStart heol rfl rfl rfl rfl fun _ => rfl,
        ih hlimit, hsum]
      rfl

end NginxDtls.ChunkedBody
