import NginxDtls.ChunkedDecode

/-! What `ctx->length` promises: no stream that comes to the end of a body is shorter, and the sizes stay within their type. -/

namespace NginxDtls.ChunkedBody

/-! ### The bytes that must still come -/

theorem lengthOf_enter (state : ChunkedState) (size : ℕ) : lengthOf (enter state size) size = lengthOf state size := by
  rw [enter]
  split
  · rename_i hand
    rw [hand.1, hand.2]
    rfl
  · rfl

/-- The least length falls by one at most with each byte. -/
theorem lengthOf_step {state state' : ChunkedState} {size size' : ℕ} {ch : UInt8} (h : Step state size ch state' size') :
    lengthOf state size ≤ 1 + lengthOf state' size' := by
  cases h with
  | first | digit =>
      simp only [lengthOf]
      split_ifs
      all_goals omega
  | sizeCr hpos | sizeLf hpos | sizeSeparator hpos =>
      simp only [lengthOf, if_pos hpos.ne']
      omega
  | _ =>
      simp [lengthOf]
      try omega

/-- What the loop of the parser leaves: the size stays within its type, the bytes are counted, and data is left to the caller. -/
theorem parseLoop_left (mem : ℕ → UInt8) {left pos : ℕ} {state : ChunkedState} {size : ℕ} (h : Inside state size)
    {rc : Rc} {pos' : ℕ} {state' : ChunkedState} {size' : ℕ}
    (hresult : parseLoop mem left pos state size = (rc, pos', state', size')) :
    Inside state' size' ∧ pos ≤ pos' ∧ (rc = .ok → state' = .chunkData) ∧
      lengthOf state size + pos ≤ pos' + if rc = .done then 1 else lengthOf state' size' := by
  induction left generalizing pos state size with
  | zero =>
      cases hresult
      exact ⟨h, le_refl _, (fun hok => by cases hok), by rw [if_neg (by decide), add_comm]⟩
  | succ left ih =>
      rw [parseLoop] at hresult
      cases hbyte : chunkedByte state size (mem pos) with
      | next state₁ size₁ =>
          rw [hbyte] at hresult
          have hstep := step_of_next hbyte
          obtain ⟨hinside, hpos, hok, hlength⟩ := ih (h.step hstep) hresult
          have hone := lengthOf_step hstep
          exact ⟨hinside, by omega, hok, by omega⟩
      | data =>
          rw [hbyte] at hresult
          cases hresult
          exact ⟨h, le_refl _, fun _ => chunkedByte_data hbyte, by rw [if_neg (by decide), add_comm]⟩
      | done =>
          rw [hbyte] at hresult
          cases hresult
          refine ⟨h, le_refl _, (fun hok => by cases hok), ?_⟩
          have hone : lengthOf state' size' = 1 := by
            rcases (chunkedByte_done hbyte).1 with rfl | rfl
            · rfl
            · rfl
          rw [if_pos rfl, hone, add_comm]
      | invalid =>
          rw [hbyte] at hresult
          cases hresult
          exact ⟨h, le_refl _, (fun hok => by cases hok), by rw [if_neg (by decide), add_comm]⟩

/-- The contexts that are reached in calls of the parser when whoever calls it takes the data of the chunks. -/
inductive Reached : Chunked → Prop where
  | start : Reached ⟨.chunkStart, 0, 0⟩
  | call {ctx ctx' : Chunked} {mem : ℕ → UInt8} {pos last pos' : ℕ} {rc : Rc} (h : Reached ctx)
      (hparsed : ngxHttpParseChunked mem pos last ctx = (rc, pos', ctx')) (hrc : rc = .again ∨ rc = .ok) : Reached ctx'
  | data {ctx : Chunked} {n : ℕ} (h : Reached ctx) (hdata : ctx.state = .chunkData) (hn : n ≤ ctx.size) :
      Reached { ctx with size := ctx.size - n }

/-- The bytes of a way to go on that ends with a whole body: in the calls of the parser and as data. -/
inductive Missing : Chunked → ℕ → Prop where
  | done {ctx ctx' : Chunked} {mem : ℕ → UInt8} {pos last pos' : ℕ}
      (hparsed : ngxHttpParseChunked mem pos last ctx = (.done, pos', ctx')) : Missing ctx (pos' - pos)
  | again {ctx ctx' : Chunked} {mem : ℕ → UInt8} {pos last pos' more : ℕ}
      (hparsed : ngxHttpParseChunked mem pos last ctx = (.again, pos', ctx')) (h : Missing ctx' more) :
      Missing ctx (pos' - pos + more)
  | data {ctx ctx' : Chunked} {mem : ℕ → UInt8} {pos last pos' n more : ℕ}
      (hparsed : ngxHttpParseChunked mem pos last ctx = (.ok, pos', ctx')) (hn : n ≤ ctx'.size)
      (h : Missing { ctx' with size := ctx'.size - n } more) : Missing ctx (pos' - pos + (n + more))

/-- A call of the parser with more to come, or with data. -/
theorem ngxHttpParseChunked_left {ctx ctx' : Chunked} (h : Sound ctx.state ctx.size) {mem : ℕ → UInt8}
    {pos last pos' : ℕ} {rc : Rc} (hrc : rc = .again ∨ rc = .ok)
    (hparsed : ngxHttpParseChunked mem pos last ctx = (rc, pos', ctx')) :
    Inside ctx'.state ctx'.size ∧ pos ≤ pos' ∧ ctx'.size ≤ maxOffT - 5 ∧ (rc = .ok → ctx'.state = .chunkData) ∧
      ctx'.length = lengthOf ctx'.state ctx'.size ∧ lengthOf ctx.state ctx.size + pos ≤ pos' + ctx'.length := by
  rw [ngxHttpParseChunked] at hparsed
  revert hparsed
  cases hresult : parseLoop mem (last - pos) pos (enter ctx.state ctx.size) ctx.size with
  | mk rc₁ tail =>
      obtain ⟨pos₁, state₁, size₁⟩ := tail
      have hleft := parseLoop_left mem (sound_enter h) hresult
      rw [lengthOf_enter] at hleft
      intro hparsed
      have hnot : ¬(Rc.done = .again ∨ Rc.done = .ok) ∧ ¬(Rc.error = .again ∨ Rc.error = .ok) := by decide
      have hparsed : (if size₁ > maxOffT - 5 then (Rc.error, pos₁, { ctx with state := state₁, size := size₁ })
          else (rc₁, pos₁, ⟨state₁, size₁, lengthOf state₁ size₁⟩)) = (rc, pos', ctx') := by
        cases rc₁ with
        | again => exact hparsed
        | ok => exact hparsed
        | done =>
            cases hparsed
            exact absurd hrc hnot.1
        | error =>
            cases hparsed
            exact absurd hrc hnot.2
      split_ifs at hparsed with hlarge
      · cases hparsed
        exact absurd hrc hnot.2
      · cases hparsed
        obtain ⟨hinside, hpos, hok, hlength⟩ := hleft
        have hne : rc ≠ .done := by
          rcases hrc with rfl | rfl
          · decide
          · decide
        rw [if_neg hne] at hlength
        exact ⟨hinside, hpos, not_lt.mp hlarge, hok, rfl, hlength⟩

/-- A call of the parser that ends a body. -/
theorem ngxHttpParseChunked_done {ctx ctx' : Chunked} (h : Sound ctx.state ctx.size) {mem : ℕ → UInt8} {pos last pos' : ℕ}
    (hparsed : ngxHttpParseChunked mem pos last ctx = (.done, pos', ctx')) :
    lengthOf ctx.state ctx.size ≤ pos' - pos := by
  rw [ngxHttpParseChunked] at hparsed
  revert hparsed
  cases hresult : parseLoop mem (last - pos) pos (enter ctx.state ctx.size) ctx.size with
  | mk rc₁ tail =>
      obtain ⟨pos₁, state₁, size₁⟩ := tail
      have hleft := parseLoop_left mem (sound_enter h) hresult
      rw [lengthOf_enter] at hleft
      intro hparsed
      cases rc₁ with
      | done =>
          cases hparsed
          have hlength := hleft.2.2.2
          rw [if_pos rfl] at hlength
          omega
      | error => cases hparsed
      | again | ok =>
          dsimp only at hparsed
          split_ifs at hparsed
          · cases hparsed
          · cases hparsed

theorem Reached.sound {ctx : Chunked} (h : Reached ctx) : Sound ctx.state ctx.size := by
  induction h with
  | start => exact ⟨Nat.zero_le _, fun _ => Nat.zero_le _, fun hor => by simp at hor⟩
  | call h hparsed hrc ih => exact (ngxHttpParseChunked_left ih hrc hparsed).1.toSound
  | @data ctx n h hdata hn ih =>
      rw [hdata] at ih
      change Sound ctx.state (ctx.size - n)
      rw [hdata]
      exact ih.sub n

/-- No byte of a call makes the size too large for its type, and the least length fits in it too. -/
theorem Reached.no_overflow {ctx : Chunked} (h : Reached ctx) :
    (∀ mem left pos, (parseLoop mem left pos (enter ctx.state ctx.size) ctx.size).2.2.2 ≤ maxOffT) ∧
      ctx.length ≤ maxOffT := by
  constructor
  · intro mem left pos
    exact (parseLoop_left mem (sound_enter h.sound) rfl).1.max
  · induction h with
    | start => exact Nat.zero_le _
    | @call ctx ctx' mem pos last pos' rc h hparsed hrc ih =>
        obtain ⟨hinside, -, hsmall, -, hlength, -⟩ := ngxHttpParseChunked_left h.sound hrc hparsed
        have hle : ∀ state, lengthOf state ctx'.size ≤ ctx'.size + 5 := by
          intro state
          cases state
          case chunkSize =>
            simp only [lengthOf]
            split_ifs
            all_goals omega
          all_goals
            simp only [lengthOf]
            omega
        have hlarge : 5 ≤ maxOffT := by decide
        have hlast := hle ctx'.state
        omega
    | data h hdata hn ih => exact ih

/-- Every way to go on to the end of a body takes the least length of what must come. -/
theorem Missing.le {ctx : Chunked} {n : ℕ} (h : Missing ctx n) (hsound : Sound ctx.state ctx.size) :
    lengthOf ctx.state ctx.size ≤ n := by
  induction h with
  | done hparsed => exact ngxHttpParseChunked_done hsound hparsed
  | again hparsed h ih =>
      obtain ⟨hinside, hpos, -, -, hlength, hle⟩ := ngxHttpParseChunked_left hsound (Or.inl rfl) hparsed
      have hmore := ih hinside.toSound
      omega
  | @data ctx ctx' mem pos last pos' n more hparsed hn h ih =>
      obtain ⟨hinside, hpos, -, hok, hlength, hle⟩ := ngxHttpParseChunked_left hsound (Or.inr rfl) hparsed
      have hsound' := hinside.toSound
      have hstate := hok rfl
      rw [hstate] at hsound' hlength
      have hmore := ih (by dsimp only; rw [hstate]; exact hsound'.sub n)
      dsimp only at hmore
      rw [hstate] at hmore
      simp only [lengthOf] at hmore hlength
      omega

/-- A stream that ends a body is at least as long as what must come. -/
theorem decode_length {conf : Conf} {state : ChunkedState} {size : ℕ} {n n' : ℤ} {w rest data : List UInt8}
    (hsound : Sound state size) (h : decode conf state size n w = .done rest n' data) :
    lengthOf state size + rest.length ≤ w.length := by
  induction w generalizing state size n data with
  | nil =>
      rw [decode] at h
      split at h
      · cases h
      · cases h
  | cons ch w ih =>
      have hinside := sound_enter hsound
      rw [decode] at h
      rw [← lengthOf_enter, List.length_cons]
      cases hbyte : chunkedByte (enter state size) size ch with
      | next state' size' =>
          rw [hbyte] at h
          have hstep := step_of_next hbyte
          have hlength := lengthOf_step hstep
          have hmore := ih (hinside.step hstep).toSound h
          omega
      | data =>
          have hdata := chunkedByte_data hbyte
          rw [hdata] at hinside ⊢
          rw [hbyte] at h
          dsimp only at h
          split_ifs at h with hlarge hlimit
          revert h
          cases hmore : decode conf .chunkData (size - 1) (n + 1) w with
          | done rest' n'' data' =>
              intro h
              obtain ⟨rfl, rfl, rfl⟩ := Decoded.done.inj h
              have hle := ih (hinside.toSound.sub 1) hmore
              simp only [lengthOf] at hle ⊢
              omega
          | again state' size' n'' data' =>
              intro h
              cases h
          | invalid =>
              intro h
              cases h
          | tooLarge =>
              intro h
              cases h
      | done =>
          rw [hbyte] at h
          obtain ⟨rfl, -, -⟩ := Decoded.done.inj h
          have hone : lengthOf (enter state size) size = 1 := by
            rcases (chunkedByte_done hbyte).1 with hstate | hstate
            · rw [hstate]
              rfl
            · rw [hstate]
              rfl
          omega
      | invalid =>
          rw [hbyte] at h
          cases h

end NginxDtls.ChunkedBody
