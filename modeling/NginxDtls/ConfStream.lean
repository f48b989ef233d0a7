import NginxDtls.ConfToken

/-! The tokenizer without its buffer. Only the bytes from the start of the word and the bytes to come matter: a byte is
refused when the word has already as many bytes as the buffer holds, and where the refills fall makes no difference. -/

namespace NginxDtls.Conf

/-- The bytes from `start` on, behind a byte. -/
def Mark.apply (mark : Mark) (span : List UInt8) (ch : UInt8) : List UInt8 :=
  match mark with
  | .keep => span ++ [ch]
  | .here => [ch]
  | .behind => []

inductive StreamResult where
  | token (rc : Rc) (args : List (List UInt8)) (rest : List UInt8)
  | fileDone
  | error (e : Error)

/-- A call on the bytes to come. -/
def readStream (l : Locals) (span : List UInt8) : List UInt8 → StreamResult
  | [] => if l.args ≠ [] ∨ ¬l.lastSpace then .error .unexpectedEnd else .fileDone
  | ch :: rest =>
    if span.length = ngxConfBuffer then .error (.tooLong l.openQuote (span.take 10))
    else
      match confByte l span ch with
      | .next l' mark => readStream l' (mark.apply span ch) rest
      | .done rc args => .token rc args rest
      | .error e => .error e

/-- The bytes behind a token in place of the buffer. -/
def Result.stream : Result → StreamResult
  | .token rc args conf => .token rc args conf.unread
  | .fileDone => .fileDone
  | .error e _ => .error e

section Refinement

variable {st : ReadToken} {ch : UInt8} {rest : List UInt8}

theorem fetch_nil (h : st.conf.unread = []) :
    st.fetch = if st.locals.args ≠ [] ∨ ¬st.locals.lastSpace then .error .unexpectedEnd st.conf.line else .fileDone := by
  obtain ⟨hbuffer, hfile⟩ := List.append_eq_nil_iff.mp h
  unfold ReadToken.fetch
  rw [dif_pos (List.drop_eq_nil_iff.mp hbuffer), dif_pos (List.drop_eq_nil_iff.mp hfile)]

/-- A word that fills the buffer. -/
theorem fetch_full (h : st.conf.unread = ch :: rest) (hspan : st.span.length = ngxConfBuffer) :
    st.fetch = .error (.tooLong st.locals.openQuote (st.span.take 10)) st.startLine := by
  have hpos := st.conf.pos_le
  have hbuffer := st.conf.buffer_le
  have hlen := hspan
  rw [st.span_length] at hlen
  have hlast : st.conf.buffer.length ≤ st.conf.pos := by omega
  have hfile : ¬st.conf.file.length ≤ st.conf.offset := by
    intro hle
    rw [ConfFile.unread, List.drop_eq_nil_of_le hlast, List.drop_eq_nil_of_le hle] at h
    cases h
  unfold ReadToken.fetch
  rw [dif_pos hlast, dif_neg hfile, dif_pos hlen]

theorem fetch_cons (h : st.conf.unread = ch :: rest) (hspan : st.span.length ≠ ngxConfBuffer) :
    ∃ st' hpos, st.fetch = .ready st' hpos ∧ st'.locals = st.locals ∧ st'.span = st.span ∧
      st'.conf.buffer[st'.conf.pos] = ch ∧ (st'.conf.advance hpos).unread = rest := by
  have hready : ∃ st' hpos, st.fetch = .ready st' hpos := by
    unfold ReadToken.fetch
    by_cases hlast : st.conf.buffer.length ≤ st.conf.pos
    · have hfile : ¬st.conf.file.length ≤ st.conf.offset := by
        intro hle
        rw [ConfFile.unread, List.drop_eq_nil_of_le hlast, List.drop_eq_nil_of_le hle] at h
        cases h
      rw [st.span_length] at hspan
      rw [dif_pos hlast, dif_neg hfile, dif_neg hspan]
      exact ⟨_, _, rfl⟩
    · rw [dif_neg hlast]
      exact ⟨_, _, rfl⟩
  obtain ⟨st', hpos, hfetch⟩ := hready
  obtain ⟨hunread, hlocals, hspan'⟩ := ReadToken.fetch_ready hfetch
  rw [h, st'.conf.unread_cons hpos] at hunread
  obtain ⟨hch, hrest⟩ := List.cons.inj hunread
  exact ⟨st', hpos, hfetch, hlocals, hspan', hch, hrest⟩

theorem advance_span (h : st.conf.pos < st.conf.buffer.length) (l : Locals) (mark : Mark) :
    (st.advance h l mark).span = mark.apply st.span st.conf.buffer[st.conf.pos] := by
  have hle := st.start_le
  have htake : st.conf.buffer.take (st.conf.pos + 1) = st.conf.buffer.take st.conf.pos ++ [st.conf.buffer[st.conf.pos]] :=
    List.take_succ_eq_append_getElem h
  have hlength : (st.conf.buffer.take st.conf.pos).length = st.conf.pos := by
    rw [List.length_take]
    omega
  cases mark with
  | keep =>
      show (st.conf.buffer.take (st.conf.pos + 1)).drop st.start = st.span ++ [_]
      rw [htake, List.drop_append_of_le_length (by omega)]
      rfl
  | here =>
      show (st.conf.buffer.take (st.conf.pos + 1)).drop st.conf.pos = [_]
      rw [htake, List.drop_append_of_le_length (by omega), List.drop_eq_nil_of_le (by omega), List.nil_append]
  | behind =>
      show (st.conf.buffer.take (st.conf.pos + 1)).drop (st.conf.pos + 1) = []
      exact List.drop_eq_nil_of_le (by rw [List.length_take]; omega)

theorem advance_locals (h : st.conf.pos < st.conf.buffer.length) (l : Locals) (mark : Mark) :
    (st.advance h l mark).locals = l := by
  cases mark <;> rfl

theorem confStep_nil (h : st.conf.unread = []) : confStep st = .ret (if st.locals.args ≠ [] ∨ ¬st.locals.lastSpace then
    .error .unexpectedEnd st.conf.line else .fileDone) := by
  have hfetch := fetch_nil h
  by_cases hend : st.locals.args ≠ [] ∨ ¬st.locals.lastSpace
  · rw [if_pos hend] at hfetch
    rw [confStep, hfetch, if_pos hend]
  · rw [if_neg hend] at hfetch
    rw [confStep, hfetch, if_neg hend]

theorem confStep_full (h : st.conf.unread = ch :: rest) (hspan : st.span.length = ngxConfBuffer) :
    confStep st = .ret (.error (.tooLong st.locals.openQuote (st.span.take 10)) st.startLine) := by
  rw [confStep, fetch_full h hspan]

/-- A round with a byte. -/
theorem confStep_cons (h : st.conf.unread = ch :: rest) (hspan : st.span.length ≠ ngxConfBuffer) :
    ∃ (st' : ReadToken) (hpos : st'.conf.pos < st'.conf.buffer.length), st'.span = st.span ∧
      st'.conf.buffer[st'.conf.pos] = ch ∧ (st'.conf.advance hpos).unread = rest ∧
      confStep st = match confByte st.locals st.span ch with
        | .next l mark => .next (st'.advance hpos l mark)
        | .done rc args => .ret (.token rc args (st'.conf.advance hpos))
        | .error e => .ret (.error e (st'.conf.advance hpos).line) := by
  obtain ⟨st', hpos, hfetch, hlocals, hspan', hch, hrest⟩ := fetch_cons h hspan
  refine ⟨st', hpos, hspan', hch, hrest, ?_⟩
  rw [confStep, hfetch]
  dsimp only
  cases hbyte : confByte st.locals st.span ch with
  | next l mark => rw [hlocals, hspan', hch, hbyte]
  | done rc args => rw [hlocals, hspan', hch, hbyte]
  | error e => rw [hlocals, hspan', hch, hbyte]

/-- A call is the call on the bytes to come. -/
theorem readLoop_stream (st : ReadToken) : (readLoop st).stream = readStream st.locals st.span st.conf.unread := by
  induction hn : st.conf.unread.length using Nat.strong_induction_on generalizing st with
  | _ n ih =>
    cases hunread : st.conf.unread with
    | nil =>
        rw [readLoop_ret (confStep_nil hunread), readStream]
        split <;> rfl
    | cons ch rest =>
        rw [readStream]
        by_cases hspan : st.span.length = ngxConfBuffer
        · rw [readLoop_ret (confStep_full hunread hspan), if_pos hspan]
          rfl
        · obtain ⟨st', hpos, hspan', hch, hrest, hstep⟩ := confStep_cons hunread hspan
          rw [if_neg hspan]
          cases hbyte : confByte st.locals st.span ch with
          | next l mark =>
              rw [hbyte] at hstep
              have hnext := ih _ (hn ▸ confStep_next hstep) (st'.advance hpos l mark) rfl
              rw [readLoop_next hstep, hnext, advance_locals, advance_span, hspan', hch, ReadToken.advance_conf, hrest]
          | done rc args =>
              rw [hbyte] at hstep
              rw [readLoop_ret hstep, Result.stream, hrest]
          | error e =>
              rw [hbyte] at hstep
              rw [readLoop_ret hstep, Result.stream]

end Refinement

theorem ngxConfReadToken_stream (conf : ConfFile) :
    (ngxConfReadToken conf).stream = readStream {} [] conf.unread := by
  have h := readLoop_stream (.init conf)
  rwa [show (ReadToken.init conf).span = [] from
    List.drop_eq_nil_of_le (by rw [List.length_take]; exact min_le_left _ _)] at h

/-! ### The tokens of a file -/

/-- The tokens in the bytes to come. -/
def streamTokens (l : Locals) (span : List UInt8) : List UInt8 → Option (List (Rc × List (List UInt8)))
  | [] => if l.args ≠ [] ∨ ¬l.lastSpace then none else some []
  | ch :: rest =>
    if span.length = ngxConfBuffer then none
    else
      match confByte l span ch with
      | .next l' mark => streamTokens l' (mark.apply span ch) rest
      | .done rc args => (streamTokens {} [] rest).map ((rc, args) :: ·)
      | .error _ => none

/-- A call, and the tokens behind it. -/
theorem streamTokens_readStream (l : Locals) (span rest : List UInt8) : streamTokens l span rest =
    match readStream l span rest with
    | .token rc args rest' => (streamTokens {} [] rest').map ((rc, args) :: ·)
    | .fileDone => some []
    | .error _ => none := by
  induction rest generalizing l span with
  | nil =>
      rw [streamTokens, readStream]
      split <;> rfl
  | cons ch rest ih =>
      rw [streamTokens, readStream]
      split
      · rfl
      · cases confByte l span ch with
        | next l' mark => exact ih l' (mark.apply span ch)
        | done rc args => rfl
        | error e => rfl

/-- The tokens of a file are those of its bytes. -/
theorem confTokens_stream (conf : ConfFile) : confTokens conf = streamTokens {} [] conf.unread := by
  induction conf using confTokens.induct with
  | case1 conf rc args conf' htoken ih =>
      have hstream := ngxConfReadToken_stream conf
      rw [htoken] at hstream
      rw [confTokens, streamTokens_readStream, ← hstream]
      split
      · rename_i htoken'
        obtain ⟨rfl, rfl, rfl⟩ := Result.token.inj (htoken.symm.trans htoken')
        rw [ih]
        rfl
      · rename_i htoken'
        cases htoken.symm.trans htoken'
      · rename_i htoken'
        cases htoken.symm.trans htoken'
  | case2 conf hdone =>
      have hstream := ngxConfReadToken_stream conf
      rw [hdone] at hstream
      rw [confTokens, streamTokens_readStream, ← hstream]
      split
      · rename_i htoken'
        cases hdone.symm.trans htoken'
      · rfl
      · rename_i htoken'
        cases hdone.symm.trans htoken'
  | case3 conf e line herror =>
      have hstream := ngxConfReadToken_stream conf
      rw [herror] at hstream
      rw [confTokens, streamTokens_readStream, ← hstream]
      split
      · rename_i htoken'
        cases herror.symm.trans htoken'
      · rename_i htoken'
        cases herror.symm.trans htoken'
      · rfl

/-! ### One step -/

/-- A round that reads a byte of the token. -/
theorem confStep_next_inv {st st' : ReadToken} (h : confStep st = .next st') : ∃ ch mark,
    st.conf.unread = ch :: st'.conf.unread ∧ st.span.length ≠ ngxConfBuffer ∧
      confByte st.locals st.span ch = .next st'.locals mark ∧ st'.span = mark.apply st.span ch := by
  cases hunread : st.conf.unread with
  | nil => cases (confStep_nil hunread).symm.trans h
  | cons ch rest =>
      by_cases hspan : st.span.length = ngxConfBuffer
      · cases (confStep_full hunread hspan).symm.trans h
      · obtain ⟨st₁, hpos, hspan', hch, hrest, hstep⟩ := confStep_cons hunread hspan
        rw [h] at hstep
        cases hbyte : confByte st.locals st.span ch with
        | next l mark =>
            rw [hbyte] at hstep
            obtain rfl := Step.next.inj hstep
            refine ⟨ch, mark, ?_, hspan, ?_, ?_⟩
            · rw [ReadToken.advance_conf, hrest]
            · rw [hbyte, advance_locals]
            · rw [advance_span, hspan', hch]
        | done rc args =>
            rw [hbyte] at hstep
            cases hstep
        | error e =>
            rw [hbyte] at hstep
            cases hstep

/-- A round that ends the token. -/
theorem confStep_token_inv {st : ReadToken} {rc : Rc} {args : List (List UInt8)} {conf : ConfFile}
    (h : confStep st = .ret (.token rc args conf)) : ∃ ch, st.conf.unread = ch :: conf.unread ∧
      st.span.length ≠ ngxConfBuffer ∧ confByte st.locals st.span ch = .done rc args := by
  cases hunread : st.conf.unread with
  | nil =>
      have hnil := (confStep_nil hunread).symm.trans h
      split at hnil <;> cases hnil
  | cons ch rest =>
      by_cases hspan : st.span.length = ngxConfBuffer
      · cases (confStep_full hunread hspan).symm.trans h
      · obtain ⟨st₁, hpos, hspan', hch, hrest, hstep⟩ := confStep_cons hunread hspan
        rw [h] at hstep
        cases hbyte : confByte st.locals st.span ch with
        | next l mark =>
            rw [hbyte] at hstep
            cases hstep
        | done rc' args' =>
            rw [hbyte] at hstep
            obtain ⟨rfl, rfl, rfl⟩ := Result.token.inj (Step.ret.inj hstep)
            exact ⟨ch, by rw [hrest], hspan, hbyte⟩
        | error e =>
            rw [hbyte] at hstep
            cases hstep

end NginxDtls.Conf
