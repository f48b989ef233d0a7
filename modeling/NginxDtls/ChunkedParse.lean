import Mathlib.Tactic

/-! Chunked request bodies: the parser of `ngx_http_parse.c`, which is called again wherever it has stopped, and the filter of
`ngx_http_request_body.c`, which takes the data of the chunks out of the buffers and moves small chunks behind one another in
them. -/

namespace NginxDtls.ChunkedBody

/-! ### The parser -/

/-- The states of `ngx_http_parse_chunked`. -/
inductive ChunkedState where
  | chunkStart
  | chunkSize
  | chunkExtension
  | chunkExtensionAlmostDone
  | chunkData
  | afterData
  | afterDataAlmostDone
  | lastChunkExtension
  | lastChunkExtensionAlmostDone
  | trailer
  | trailerAlmostDone
  | trailerHeader
  | trailerHeaderAlmostDone
  deriving DecidableEq, Repr

/-- `ngx_http_chunked_t` -/
structure Chunked where
  state : ChunkedState
  size : ℕ
  length : ℕ

/-- `NGX_MAX_OFF_T_VALUE` -/
def maxOffT : ℕ := 2 ^ 63 - 1

def cr : UInt8 := 13

def lf : UInt8 := 10

/-- `';'`, `' '` or `'\t'` -/
def isSeparator (ch : UInt8) : Bool := ch = 59 ∨ ch = 32 ∨ ch = 9

/-- The value of a hexadecimal digit. -/
def hexDigit (ch : UInt8) : Option ℕ :=
  if 48 ≤ ch ∧ ch ≤ 57 then some (ch - 48).toNat
  else
    let c := ch ||| 0x20
    if 97 ≤ c ∧ c ≤ 102 then some ((c - 97).toNat + 10) else none

inductive ByteResult where
  | next (state : ChunkedState) (size : ℕ)
  | data
  | done
  | invalid

/-- The states in which a line is skipped up to its end. -/
def skipByte (state almostDone behind : ChunkedState) (size : ℕ) (ch : UInt8) : ByteResult :=
  if ch = cr then .next almostDone size else if ch = lf then .next behind size else .next state size

/-- The states in which a line feed must follow. -/
def lineFeed (behind : ChunkedState) (size : ℕ) (ch : UInt8) : ByteResult :=
  if ch = lf then .next behind size else .invalid

/-- The switch of `ngx_http_parse_chunked`. -/
def chunkedByte (state : ChunkedState) (size : ℕ) (ch : UInt8) : ByteResult :=
  match state with
  | .chunkStart =>
    match hexDigit ch with
    | some digit => .next .chunkSize digit
    | none => .invalid
  | .chunkSize =>
    if size > maxOffT / 16 then .invalid
    else
      match hexDigit ch with
      | some digit => .next .chunkSize (size * 16 + digit)
      | none =>
        if size = 0 then
          if ch = cr then .next .lastChunkExtensionAlmostDone size
          else if ch = lf then .next .trailer size
          else if isSeparator ch then .next .lastChunkExtension size
          else .invalid
        else if ch = cr then .next .chunkExtensionAlmostDone size
        else if ch = lf then .next .chunkData size
        else if isSeparator ch then .next .chunkExtension size
        else .invalid
  | .chunkExtension => skipByte .chunkExtension .chunkExtensionAlmostDone .chunkData size ch
  | .chunkExtensionAlmostDone => lineFeed .chunkData size ch
  | .chunkData => .data
  | .afterData =>
    if ch = cr then .next .afterDataAlmostDone size else if ch = lf then .next .chunkStart size else .invalid
  | .afterDataAlmostDone => lineFeed .chunkStart size ch
  | .lastChunkExtension => skipByte .lastChunkExtension .lastChunkExtensionAlmostDone .trailer size ch
  | .lastChunkExtensionAlmostDone => lineFeed .trailer size ch
  | .trailer =>
    if ch = cr then .next .trailerAlmostDone size else if ch = lf then .done else .next .trailerHeader size
  | .trailerAlmostDone => if ch = lf then .done else .invalid
  | .trailerHeader => skipByte .trailerHeader .trailerHeaderAlmostDone .trailer size ch
  | .trailerHeaderAlmostDone => lineFeed .trailer size ch

inductive Rc where
  | ok
  | again
  | done
  | error
  deriving DecidableEq, Repr

/-- The loop of `ngx_http_parse_chunked`, by the bytes that are left, with `pos`, the state and `ctx->size`. -/
def parseLoop (mem : ℕ → UInt8) : ℕ → ℕ → ChunkedState → ℕ → Rc × ℕ × ChunkedState × ℕ
  | 0, pos, state, size => (.again, pos, state, size)
  | left + 1, pos, state, size =>
    match chunkedByte state size (mem pos) with
    | .next state size => parseLoop mem left (pos + 1) state size
    | .data => (.ok, pos, state, size)
    | .done => (.done, pos, state, size)
    | .invalid => (.error, pos, state, size)

/-- The least length of what must still come. -/
def lengthOf (state : ChunkedState) (size : ℕ) : ℕ :=
  match state with
  | .chunkStart => 3
  | .chunkSize => 1 + if size ≠ 0 then size + 4 else 1
  | .chunkExtension | .chunkExtensionAlmostDone => 1 + size + 4
  | .chunkData => size + 4
  | .afterData | .afterDataAlmostDone => 4
  | .lastChunkExtension | .lastChunkExtensionAlmostDone => 2
  | .trailer | .trailerAlmostDone => 1
  | .trailerHeader | .trailerHeaderAlmostDone => 2

/-- The state at the start of a call: the data of a chunk may be at an end. -/
def enter (state : ChunkedState) (size : ℕ) : ChunkedState :=
  if state = .chunkData ∧ size = 0 then .afterData else state

/-- `ngx_http_parse_chunked` of the bytes from `b->pos` to `b->last`, with the new `b->pos`. -/
def ngxHttpParseChunked (mem : ℕ → UInt8) (pos last : ℕ) (ctx : Chunked) : Rc × ℕ × Chunked :=
  match parseLoop mem (last - pos) pos (enter ctx.state ctx.size) ctx.size with
  | (.done, pos, _, size) => (.done, pos + 1, { ctx with state := .chunkStart, size := size })
  | (.error, _, _, size) => (.error, pos, { ctx with size := size })
  | (rc, pos, state, size) =>
    if size > maxOffT - 5 then (.error, pos, { ctx with state := state, size := size })
    else (rc, pos, ⟨state, size, lengthOf state size⟩)

/-! ### The filter -/

/-- `client_max_body_size`, where zero is no limit, and the size of `large_client_header_buffers`. -/
structure Conf where
  clientMaxBodySize : ℤ
  largeClientHeaderBuffersSize : ℕ

/-- What the filter keeps of a request: `rb->rest`, `rb->chunked` and `r->headers_in.content_length_n`. -/
structure Request where
  rest : ℤ
  chunked : Chunked
  contentLengthN : ℤ

/-- A buffer, by its memory. -/
structure Buf where
  mem : ℕ → UInt8
  pos : ℕ
  last : ℕ

/-- A buffer of `out` in the memory of the buffer at hand. -/
structure OutBuf where
  pos : ℕ
  last : ℕ

/-- The bytes of the memory from a position on. -/
def bytes (mem : ℕ → UInt8) : ℕ → ℕ → List UInt8
  | _, 0 => []
  | pos, n + 1 => mem pos :: bytes mem (pos + 1) n

/-- The bytes that are moved one by one. -/
def copyBytes (mem : ℕ → UInt8) (dst src : ℕ) : ℕ → ℕ → UInt8
  | 0 => mem
  | n + 1 => copyBytes (Function.update mem dst (mem src)) (dst + 1) (src + 1) n

/-- `ngx_memmove` -/
def ngxMemmove (mem : ℕ → UInt8) (dst src n : ℕ) : ℕ → UInt8 := fun i =>
  if dst ≤ i ∧ i < dst + n then mem (src + (i - dst)) else mem i

/-- What changes in the loop over one buffer: its memory and its position, `rb->chunked`, `content_length_n`, and what has been
put out of it, of which `b` is the last. -/
structure Loop where
  mem : ℕ → UInt8
  pos : ℕ
  ctx : Chunked
  contentLengthN : ℤ
  out : List OutBuf
  b : Option OutBuf

/-- A chunk is put behind the one before it. -/
def Loop.copy (l : Loop) (b : OutBuf) : Loop :=
  { l with
    mem := if l.ctx.size < 8 then copyBytes l.mem b.last l.pos l.ctx.size else ngxMemmove l.mem b.last l.pos l.ctx.size
    pos := l.pos + l.ctx.size
    ctx := { l.ctx with size := 0 }
    contentLengthN := l.contentLengthN + l.ctx.size
    b := some ⟨b.pos, b.last + l.ctx.size⟩ }

/-- A chunk, or what has come of it, is put out where it is. -/
def Loop.pass (l : Loop) (last : ℕ) : Loop :=
  let size := last - l.pos
  let out := l.out ++ l.b.toList
  if size > l.ctx.size then
    { l with
      pos := l.pos + l.ctx.size
      ctx := { l.ctx with size := 0 }
      contentLengthN := l.contentLengthN + l.ctx.size
      out := out
      b := some ⟨l.pos, l.pos + l.ctx.size⟩ }
  else
    { l with
      pos := last
      ctx := { l.ctx with size := l.ctx.size - size }
      contentLengthN := l.contentLengthN + size
      out := out
      b := some ⟨l.pos, last⟩ }

/-- How the loop over a buffer ends: with a whole body, with more to come, or with a status. -/
inductive End where
  | done
  | again
  | status (code : ℕ)
  deriving DecidableEq, Repr

/-- The loop over one buffer, by its rounds. -/
def filterLoop (conf : Conf) (last : ℕ) : ℕ → Loop → Option (Loop × End)
  | 0, _ => none
  | rounds + 1, l =>
    match ngxHttpParseChunked l.mem l.pos last l.ctx with
    | (.ok, pos, ctx) =>
      let l := { l with pos := pos, ctx := ctx }
      if conf.clientMaxBodySize ≠ 0 ∧ conf.clientMaxBodySize - l.contentLengthN < ctx.size then some (l, .status 413)
      else
        match l.b with
        | some b =>
          if ctx.size ≤ 128 ∧ last - l.pos ≥ ctx.size then filterLoop conf last rounds (l.copy b)
          else filterLoop conf last rounds (l.pass last)
        | none => filterLoop conf last rounds (l.pass last)
    | (.done, pos, ctx) => some ({ l with pos := pos, ctx := ctx }, .done)
    | (.again, pos, ctx) => some ({ l with pos := pos, ctx := ctx }, .again)
    | (.error, pos, ctx) => some ({ l with pos := pos, ctx := ctx }, .status 400)

/-- The bytes that have been put out of a buffer. -/
def Loop.content (l : Loop) : List (List UInt8) := (l.out ++ l.b.toList).map fun b => bytes l.mem b.pos (b.last - b.pos)

/-- What the filter leaves: a status or the buffers that are passed on, with `last_buf`; the request; and where the buffers have
been read up to. -/
structure Filtered where
  request : Request
  out : List (List UInt8 × Bool)
  pos : List ℕ
  status : Option ℕ

/-- The loop over the chain. -/
def chainLoop (conf : Conf) (request : Request) (out : List (List UInt8 × Bool)) (pos : List ℕ) : List Buf → Option Filtered
  | [] => some ⟨request, out, pos, none⟩
  | buf :: chain => do
    let (l, ends) ← filterLoop conf buf.last (buf.last - buf.pos + 1)
      ⟨buf.mem, buf.pos, request.chunked, request.contentLengthN, [], none⟩
    let request := { request with chunked := l.ctx, contentLengthN := l.contentLengthN }
    let out := out ++ l.content.map fun data => (data, false)
    match ends with
    | .done => chainLoop conf { request with rest := 0 } (out ++ [([], true)]) (pos ++ [l.pos]) chain
    | .again =>
      chainLoop conf { request with rest := max l.ctx.length conf.largeClientHeaderBuffersSize } out (pos ++ [l.pos]) chain
    | .status code => some ⟨request, [], pos ++ [l.pos], some code⟩

/-- The first call for a request. -/
def Request.begin (conf : Conf) (request : Request) : Request :=
  if request.rest = -1 then ⟨conf.largeClientHeaderBuffersSize, ⟨.chunkStart, 0, 0⟩, 0⟩ else request

/-- `ngx_http_request_body_chunked_filter` -/
def ngxHttpRequestBodyChunkedFilter (conf : Conf) (request : Request) (chain : List Buf) : Option Filtered :=
  chainLoop conf (request.begin conf) [] [] chain

end NginxDtls.ChunkedBody
