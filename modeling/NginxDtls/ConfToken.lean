import Mathlib.Data.List.Basic
import Mathlib.Data.UInt
import Mathlib.Tactic

/-! The tokenizer of configuration files, `ngx_conf_read_token` of `ngx_conf_file.c`. It reads the file through a buffer of
`NGX_CONF_BUFFER` bytes; a refill keeps the bytes from the remembered start of the current word on. The buffer is the list
of the bytes from `b->start` to `b->last`, and a mark in it is an index. Logging is left to the result, memory is always
available, and a file does not change while it is read. -/

namespace NginxDtls.Conf

/-- `NGX_CONF_BUFFER` -/
def ngxConfBuffer : ℕ := 4096

def lf : UInt8 := 10

def quote : UInt8 := 34

def sharp : UInt8 := 35

def dollar : UInt8 := 36

def apostrophe : UInt8 := 39

def semicolon : UInt8 := 59

def backslash : UInt8 := 92

def leftBrace : UInt8 := 123

def rightBrace : UInt8 := 125

/-- `ch == ' ' || ch == '\t' || ch == CR || ch == LF` -/
def IsBlank (ch : UInt8) : Prop := ch = 32 ∨ ch = 9 ∨ ch = 13 ∨ ch = 10

instance (ch : UInt8) : Decidable (IsBlank ch) := inferInstanceAs (Decidable (_ ∨ _))

/-- The codes of a token; `error` is apart. -/
inductive Rc where
  | ok
  | blockStart
  | blockDone
  deriving DecidableEq

/-- The messages of the tokenizer. -/
inductive Error where
  /-- `unexpected end of file, expecting ";" or "}"` -/
  | unexpectedEnd
  /-- `too long parameter, probably missing terminating "%c" character` with the quote, or `too long parameter "%*s..."
  started` with the first bytes. -/
  | tooLong (quote : Option UInt8) (head : List UInt8)
  /-- `unexpected "%c"` -/
  | unexpected (ch : UInt8)
  deriving DecidableEq

/-! ### One byte -/

/-- The locals that do not point into the buffer. `found` is zero between two bytes, and `args` is `cf->args`. -/
structure Locals where
  needSpace : Bool := false
  lastSpace : Bool := true
  sharpComment : Bool := false
  isVariable : Bool := false
  quoted : Bool := false
  sQuoted : Bool := false
  dQuoted : Bool := false
  args : List (List UInt8) := []
  deriving DecidableEq

/-- What a byte does with `start`: nothing, `start = b->pos - 1`, or one byte more. -/
inductive Mark where
  | keep
  | here
  | behind

/-- What a byte does. -/
inductive ByteResult where
  | next (l : Locals) (mark : Mark)
  | done (rc : Rc) (args : List (List UInt8))
  | error (e : Error)

/-- The loop that copies a word without its escapes. `next` is the byte behind the word. -/
def copyWord (next : UInt8) : List UInt8 → List UInt8
  | [] => []
  | [c] =>
    if c = backslash then
      if next = quote ∨ next = apostrophe ∨ next = backslash then [next]
      else if next = 116 then [9]
      else if next = 114 then [13]
      else if next = 110 then [10]
      else [c]
    else [c]
  | c :: d :: src =>
    if c = backslash then
      if d = quote ∨ d = apostrophe ∨ d = backslash then d :: copyWord next src
      else if d = 116 then 9 :: copyWord next src
      else if d = 114 then 13 :: copyWord next src
      else if d = 110 then 10 :: copyWord next src
      else c :: copyWord next (d :: src)
    else c :: copyWord next (d :: src)

/-- `if (found)`, with the bytes of the word. -/
def pushWord (l : Locals) (word : List UInt8) (ch : UInt8) : ByteResult :=
  if ch = semicolon then .done .ok (l.args ++ [copyWord ch word])
  else if ch = leftBrace then .done .blockStart (l.args ++ [copyWord ch word])
  else .next { l with args := l.args ++ [copyWord ch word] } .keep

/-- `if (last_space)` -/
def firstByte (l : Locals) (ch : UInt8) : ByteResult :=
  if IsBlank ch then .next l .here
  else if ch = semicolon ∨ ch = leftBrace then
    if l.args = [] then .error (.unexpected ch)
    else if ch = leftBrace then .done .blockStart l.args
    else .done .ok l.args
  else if ch = rightBrace then
    if l.args ≠ [] then .error (.unexpected ch) else .done .blockDone l.args
  else if ch = sharp then .next { l with sharpComment := true } .here
  else if ch = backslash then .next { l with quoted := true, lastSpace := false } .here
  else if ch = quote then .next { l with dQuoted := true, lastSpace := false } .behind
  else if ch = apostrophe then .next { l with sQuoted := true, lastSpace := false } .behind
  else if ch = dollar then .next { l with isVariable := true, lastSpace := false } .here
  else .next { l with lastSpace := false } .here

/-- The other branch, with the bytes of the word so far. -/
def wordByte (l : Locals) (word : List UInt8) (ch : UInt8) : ByteResult :=
  if ch = leftBrace ∧ l.isVariable then .next l .keep
  else if ch = backslash then .next { l with isVariable := false, quoted := true } .keep
  else if ch = dollar then .next { l with isVariable := true } .keep
  else if l.dQuoted then
    if ch = quote then pushWord { l with isVariable := false, dQuoted := false, needSpace := true } word ch
    else .next { l with isVariable := false } .keep
  else if l.sQuoted then
    if ch = apostrophe then pushWord { l with isVariable := false, sQuoted := false, needSpace := true } word ch
    else .next { l with isVariable := false } .keep
  else if IsBlank ch ∨ ch = semicolon ∨ ch = leftBrace then
    pushWord { l with isVariable := false, lastSpace := true } word ch
  else .next { l with isVariable := false } .keep

/-- `if (need_space)` -/
def spaceByte (l : Locals) (ch : UInt8) : ByteResult :=
  if IsBlank ch then .next { l with lastSpace := true, needSpace := false } .keep
  else if ch = semicolon then .done .ok l.args
  else if ch = leftBrace then .done .blockStart l.args
  else if ch = 41 then firstByte { l with lastSpace := true, needSpace := false } ch
  else .error (.unexpected ch)

/-- `if (ch == LF)` for the flag of a comment. -/
def Locals.atByte (l : Locals) (ch : UInt8) : Locals := if ch = lf then { l with sharpComment := false } else l

/-- The loop of `ngx_conf_read_token` from the byte on, with the bytes from `start` to it. -/
def confByte (l : Locals) (word : List UInt8) (ch : UInt8) : ByteResult :=
  if (l.atByte ch).sharpComment then .next (l.atByte ch) .keep
  else if l.quoted then .next { l.atByte ch with quoted := false } .keep
  else if l.needSpace then spaceByte (l.atByte ch) ch
  else if l.lastSpace then firstByte (l.atByte ch) ch
  else wordByte (l.atByte ch) word ch

/-! ### The buffer -/

/-- `cf->conf_file`: the file, the offset of the next read, the buffer with its position, and the line. -/
structure ConfFile where
  file : List UInt8
  offset : ℕ
  buffer : List UInt8
  pos : ℕ
  line : ℕ
  pos_le : pos ≤ buffer.length
  buffer_le : buffer.length ≤ ngxConfBuffer

/-- The bytes that have not been read yet. -/
def ConfFile.unread (conf : ConfFile) : List UInt8 := conf.buffer.drop conf.pos ++ conf.file.drop conf.offset

/-- A file that has just been opened. -/
def ConfFile.init (file : List UInt8) : ConfFile := ⟨file, 0, [], 0, 1, Nat.le_refl 0, Nat.zero_le _⟩

/-- The locals of `ngx_conf_read_token`. -/
structure ReadToken where
  conf : ConfFile
  locals : Locals
  start : ℕ
  startLine : ℕ
  start_le : start ≤ conf.pos

/-- The start of a call. -/
def ReadToken.init (conf : ConfFile) : ReadToken := ⟨conf, {}, conf.pos, conf.line, Nat.le_refl _⟩

/-- The bytes from `start` to `b->pos`. -/
def ReadToken.span (st : ReadToken) : List UInt8 := (st.conf.buffer.take st.conf.pos).drop st.start

/-- The length of a read. -/
def ReadToken.readSize (st : ReadToken) : ℕ :=
  min (st.conf.file.length - st.conf.offset) (ngxConfBuffer - (st.conf.pos - st.start))

theorem ReadToken.span_length (st : ReadToken) : st.span.length = st.conf.pos - st.start := by
  unfold ReadToken.span
  rw [List.length_drop, List.length_take, min_eq_left st.conf.pos_le]

theorem ReadToken.span_le (st : ReadToken) : st.span.length ≤ ngxConfBuffer := by
  have hpos := st.conf.pos_le
  have hbuffer := st.conf.buffer_le
  rw [st.span_length]
  omega

/-- The bytes from `start` on are moved to the front, and the buffer is filled from the file. -/
def ReadToken.refill (st : ReadToken) : ReadToken where
  conf :=
    { st.conf with
      offset := st.conf.offset + st.readSize
      buffer := st.span ++ (st.conf.file.drop st.conf.offset).take st.readSize
      pos := st.conf.pos - st.start
      pos_le := by
        rw [List.length_append, st.span_length]
        exact Nat.le_add_right _ _
      buffer_le := by
        have hsize : st.readSize ≤ ngxConfBuffer - (st.conf.pos - st.start) := min_le_right _ _
        have hspan := st.span_le
        rw [st.span_length] at hspan
        rw [List.length_append, List.length_take, st.span_length]
        omega }
  locals := st.locals
  start := 0
  startLine := st.startLine
  start_le := Nat.zero_le _

/-- What comes of looking for the next byte. -/
inductive Fetch where
  | ready (st : ReadToken) (h : st.conf.pos < st.conf.buffer.length)
  | fileDone
  | error (e : Error) (line : ℕ)

/-- The quote that is missing in a word that is too long. -/
def Locals.openQuote (l : Locals) : Option UInt8 :=
  if l.dQuoted then some quote else if l.sQuoted then some apostrophe else none

theorem ReadToken.refill_pos_lt {st : ReadToken} (hfile : ¬st.conf.file.length ≤ st.conf.offset)
    (hlen : ¬st.conf.pos - st.start = ngxConfBuffer) : st.refill.conf.pos < st.refill.conf.buffer.length := by
  have hspan := st.span_le
  rw [st.span_length] at hspan
  have hsize : 0 < st.readSize := lt_min (by omega) (by omega)
  show st.conf.pos - st.start < (st.span ++ (st.conf.file.drop st.conf.offset).take st.readSize).length
  rw [List.length_append, List.length_take, List.length_drop, st.span_length]
  omega

/-- `if (b->pos >= b->last)` -/
def ReadToken.fetch (st : ReadToken) : Fetch :=
  if hpos : st.conf.buffer.length ≤ st.conf.pos then
    if hfile : st.conf.file.length ≤ st.conf.offset then
      if st.locals.args ≠ [] ∨ ¬st.locals.lastSpace then .error .unexpectedEnd st.conf.line else .fileDone
    else if hlen : st.conf.pos - st.start = ngxConfBuffer then
      .error (.tooLong st.locals.openQuote (st.span.take 10)) st.startLine
    else .ready st.refill (ReadToken.refill_pos_lt hfile hlen)
  else .ready st (Nat.lt_of_not_le hpos)

/-- `b->pos++`, and the line. -/
def ConfFile.advance (conf : ConfFile) (h : conf.pos < conf.buffer.length) : ConfFile :=
  { conf with
    pos := conf.pos + 1
    line := if conf.buffer[conf.pos] = lf then conf.line + 1 else conf.line
    pos_le := h }

/-- The state behind a byte. -/
def ReadToken.advance (st : ReadToken) (h : st.conf.pos < st.conf.buffer.length) (l : Locals) (mark : Mark) :
    ReadToken :=
  match mark with
  | .keep => ⟨st.conf.advance h, l, st.start, st.startLine, Nat.le_succ_of_le st.start_le⟩
  | .here => ⟨st.conf.advance h, l, st.conf.pos, (st.conf.advance h).line, Nat.le_succ _⟩
  | .behind => ⟨st.conf.advance h, l, st.conf.pos + 1, (st.conf.advance h).line, Nat.le_refl _⟩

/-- What a call returns: a token, with the configuration at the byte behind it, `NGX_CONF_FILE_DONE`, or an error. -/
inductive Result where
  | token (rc : Rc) (args : List (List UInt8)) (conf : ConfFile)
  | fileDone
  | error (e : Error) (line : ℕ)

/-- One round of the loop. -/
inductive Step where
  | next (st : ReadToken)
  | ret (r : Result)

def confStep (st : ReadToken) : Step :=
  match st.fetch with
  | .fileDone => .ret .fileDone
  | .error e line => .ret (.error e line)
  | .ready st h =>
    match confByte st.locals st.span st.conf.buffer[st.conf.pos] with
    | .next l mark => .next (st.advance h l mark)
    | .done rc args => .ret (.token rc args (st.conf.advance h))
    | .error e => .ret (.error e (st.conf.advance h).line)

/-! ### Progress -/

theorem ReadToken.unread_refill {st : ReadToken} (h : st.conf.buffer.length ≤ st.conf.pos) :
    st.refill.conf.unread = st.conf.unread := by
  have hspan := st.span_length
  show (st.span ++ (st.conf.file.drop st.conf.offset).take st.readSize).drop (st.conf.pos - st.start) ++
    st.conf.file.drop (st.conf.offset + st.readSize) = _
  rw [← hspan, List.drop_left, ← List.drop_drop, List.take_append_drop, ConfFile.unread, List.drop_eq_nil_of_le h,
    List.nil_append]

theorem ReadToken.span_refill (st : ReadToken) : st.refill.span = st.span := by
  show ((st.span ++ (st.conf.file.drop st.conf.offset).take st.readSize).take (st.conf.pos - st.start)).drop 0 = _
  rw [← st.span_length, List.take_left, List.drop_zero]

/-- Looking for the next byte moves bytes only. -/
theorem ReadToken.fetch_ready {st st' : ReadToken} {h : st'.conf.pos < st'.conf.buffer.length}
    (hfetch : st.fetch = .ready st' h) : st'.conf.unread = st.conf.unread ∧ st'.locals = st.locals ∧
      st'.span = st.span := by
  unfold ReadToken.fetch at hfetch
  split at hfetch
  · rename_i hpos
    split at hfetch
    · split at hfetch
      · cases hfetch
      · cases hfetch
    · split at hfetch
      · cases hfetch
      · obtain rfl := (Fetch.ready.inj hfetch)
        exact ⟨ReadToken.unread_refill hpos, rfl, st.span_refill⟩
  · obtain rfl := (Fetch.ready.inj hfetch)
    exact ⟨rfl, rfl, rfl⟩

theorem ConfFile.unread_cons (conf : ConfFile) (h : conf.pos < conf.buffer.length) :
    conf.unread = conf.buffer[conf.pos] :: (conf.advance h).unread := by
  rw [ConfFile.unread, List.drop_eq_getElem_cons h]
  rfl

theorem ReadToken.advance_conf (st : ReadToken) (h : st.conf.pos < st.conf.buffer.length) (l : Locals) (mark : Mark) :
    (st.advance h l mark).conf = st.conf.advance h := by
  cases mark <;> rfl

theorem confStep_next {st st' : ReadToken} (h : confStep st = .next st') :
    st'.conf.unread.length < st.conf.unread.length := by
  unfold confStep at h
  split at h
  · cases h
  · cases h
  · rename_i st₁ hpos hfetch
    obtain ⟨hunread, -, -⟩ := ReadToken.fetch_ready hfetch
    split at h
    · obtain rfl := Step.next.inj h
      rw [ReadToken.advance_conf, ← hunread, st₁.conf.unread_cons hpos, List.length_cons]
      exact Nat.lt_succ_self _
    · cases h
    · cases h

theorem confStep_token {st : ReadToken} {rc : Rc} {args : List (List UInt8)} {conf : ConfFile}
    (h : confStep st = .ret (.token rc args conf)) : conf.unread.length < st.conf.unread.length := by
  unfold confStep at h
  split at h
  · cases h
  · cases h
  · rename_i st₁ hpos hfetch
    obtain ⟨hunread, -, -⟩ := ReadToken.fetch_ready hfetch
    split at h
    · cases h
    · obtain ⟨-, -, rfl⟩ := Result.token.inj (Step.ret.inj h)
      rw [← hunread, st₁.conf.unread_cons hpos, List.length_cons]
      exact Nat.lt_succ_self _
    · cases h

/-- The loop of `ngx_conf_read_token`. -/
def readLoop (st : ReadToken) : Result :=
  match _h : confStep st with
  | .next st' => readLoop st'
  | .ret r => r
termination_by st.conf.unread.length
decreasing_by exact confStep_next _h

theorem readLoop_next {st st' : ReadToken} (h : confStep st = .next st') : readLoop st = readLoop st' := by
  rw [readLoop]
  split
  · rename_i st₁ hstep
    rw [Step.next.inj (h.symm.trans hstep)]
  · rename_i r hstep
    cases h.symm.trans hstep

theorem readLoop_ret {st : ReadToken} {r : Result} (h : confStep st = .ret r) : readLoop st = r := by
  rw [readLoop]
  split
  · rename_i st₁ hstep
    cases h.symm.trans hstep
  · rename_i r₁ hstep
    exact (Step.ret.inj (h.symm.trans hstep)).symm

/-- `ngx_conf_read_token` -/
def ngxConfReadToken (conf : ConfFile) : Result := readLoop (.init conf)

theorem readLoop_token {st : ReadToken} {rc : Rc} {args : List (List UInt8)} {conf : ConfFile}
    (h : readLoop st = .token rc args conf) : conf.unread.length < st.conf.unread.length := by
  induction st using readLoop.induct with
  | case1 st st' hstep ih =>
      rw [readLoop_next hstep] at h
      exact (ih h).trans (confStep_next hstep)
  | case2 st r hstep =>
      rw [readLoop_ret hstep] at h
      exact confStep_token (hstep.trans (congrArg Step.ret h))

/-- The tokens of a file, as `ngx_conf_parse` asks for them one after the other; `none` is an error. -/
def confTokens (conf : ConfFile) : Option (List (Rc × List (List UInt8))) :=
  match _h : ngxConfReadToken conf with
  | .token rc args conf' => (confTokens conf').map ((rc, args) :: ·)
  | .fileDone => some []
  | .error _ _ => none
termination_by conf.unread.length
decreasing_by exact readLoop_token _h

end NginxDtls.Conf
