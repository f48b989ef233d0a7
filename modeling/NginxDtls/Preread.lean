import Mathlib.Tactic
import NginxDtls.Core
import NginxDtls.Resume

/-! `ngx_stream_ssl_preread_module.c`: the parser of a ClientHello, which stops at the end of a TLS record and goes on
with the next one, and the handler that is called after every read. A copy outside its block, and a `left` that would
become negative, is a fault. -/

namespace NginxDtls.Preread

open Resume

/-- What the parser waits for. -/
inductive State where
  | start
  /-- handshake msg_type, length -/
  | header
  /-- client_version -/
  | version
  | random
  /-- session_id length -/
  | sidLen
  | sid
  /-- cipher_suites length -/
  | csLen
  | cs
  /-- compression_methods length -/
  | cmLen
  | cm
  /-- extension -/
  | ext
  /-- extension_type, extension_data length -/
  | extHeader
  /-- SNI length -/
  | sniLen
  /-- SNI name_type, host_name length -/
  | sniHostHead
  /-- SNI host_name -/
  | sniHost
  /-- ALPN length -/
  | alpnLen
  /-- ALPN protocol_name length -/
  | alpnProtoLen
  /-- ALPN protocol_name -/
  | alpnProtoData
  /-- supported_versions length -/
  | supverLen
  deriving DecidableEq, Repr

/-- A block of memory: its size, and what was written from its beginning on. -/
structure Block where
  cap : ℕ
  data : List UInt8
  deriving DecidableEq, Repr

/-- A block of zeroes. -/
def Block.zero (n : ℕ) : Block := ⟨n, List.replicate n 0⟩

/-- Bytes are written at an offset, behind or over what was written before. -/
def Block.write (m : Block) (off : ℕ) (bytes : List UInt8) : Option Block :=
  if off ≤ m.data.length ∧ off + bytes.length ≤ m.cap then
    some { m with data := m.data.take off ++ bytes ++ m.data.drop (off + bytes.length) }
  else none

/-- `ngx_str_t`. -/
structure NgxStr where
  len : ℕ := 0
  data : Option Block := none
  deriving DecidableEq, Repr

/-- The bytes of a string. -/
def NgxStr.bytes (str : NgxStr) : List UInt8 :=
  match str.data with
  | some m => m.data.take str.len
  | none => []

/-- The blocks that a pointer of the parser points into. -/
inductive Target where
  | buf
  | version
  | host
  | alpn
  deriving DecidableEq, Repr

/-- `ngx_stream_ssl_preread_ctx_t`, but for `pos`. -/
structure Ctx where
  left : ℕ := 0
  size : ℕ := 0
  ext : ℕ := 0
  dst : Option (Target × ℕ) := none
  buf : Block := Block.zero 4
  version : Block := Block.zero 2
  host : NgxStr := {}
  alpn : NgxStr := {}
  state : State := .start
  deriving DecidableEq, Repr

/-- The bytes of `ctx->buf`. -/
def Ctx.p (c : Ctx) (i : ℕ) : ℕ := (c.buf.data.getD i 0).toNat

/-- The allocations of a session, each made at most once: whether the context, the host name and the list of protocols
get their memory. -/
structure Pool where
  ctx : Bool
  host : Bool
  alpn : Bool
  deriving DecidableEq, Repr

/-- The end of the parser; the context counts after `NGX_OK` only. -/
inductive Result where
  | ok (c : Ctx)
  | declined
  | error
  | fault
  deriving DecidableEq, Repr

/-- `ngx_cpymem(dst, pos, n)`. -/
def Ctx.cpymem (c : Ctx) (target : Target) (off : ℕ) (bytes : List UInt8) : Option Ctx :=
  match target with
  | .buf => (c.buf.write off bytes).map fun m => { c with buf := m }
  | .version => (c.version.write off bytes).map fun m => { c with version := m }
  | .host => (c.host.data.bind (·.write off bytes)).map fun m => { c with host := { c.host with data := some m } }
  | .alpn => (c.alpn.data.bind (·.write off bytes)).map fun m => { c with alpn := { c.alpn with data := some m } }

/-- Bytes are copied if there is a destination, which moves on. -/
def Ctx.copy (c : Ctx) (bytes : List UInt8) : Option Ctx :=
  match c.dst with
  | none => some c
  | some (target, off) =>
    (c.cpymem target off bytes).map fun c => { c with dst := some (target, off + bytes.length) }

/-- Bytes are taken in: copied, and counted. -/
def Ctx.take (c : Ctx) (bytes : List UInt8) : Option Ctx :=
  (c.copy bytes).bind fun c =>
    if c.left < bytes.length then none
    else some { c with size := c.size - bytes.length, left := c.left - bytes.length }

/-- The `switch` of the parser, when everything that it waited for is there. -/
def next (pool : Pool) (c : Ctx) : Progress Ctx Result :=
  match c.state with
  | .start => .more { c with state := .header, dst := some (.buf, 0), size := 4, left := 4 }
  | .header =>
    if c.p 0 ≠ 1 then .done .declined
    else .more { c with
      state := .version, dst := some (.version, 0), size := 2, left := c.p 1 * 65536 + c.p 2 * 256 + c.p 3 }
  | .version => .more { c with state := .random, dst := none, size := 32 }
  | .random => .more { c with state := .sidLen, dst := some (.buf, 0), size := 1 }
  | .sidLen => .more { c with state := .sid, dst := none, size := c.p 0 }
  | .sid => .more { c with state := .csLen, dst := some (.buf, 0), size := 2 }
  | .csLen => .more { c with state := .cs, dst := none, size := c.p 0 * 256 + c.p 1 }
  | .cs => .more { c with state := .cmLen, dst := some (.buf, 0), size := 1 }
  | .cmLen => .more { c with state := .cm, dst := none, size := c.p 0 }
  | .cm =>
    if c.left = 0 then .done (.ok c)
    else .more { c with state := .ext, dst := some (.buf, 0), size := 2 }
  | .ext =>
    if c.left = 0 then .done (.ok c)
    else .more { c with state := .extHeader, dst := some (.buf, 0), size := 4 }
  | .extHeader =>
    if c.p 0 = 0 ∧ c.p 1 = 0 ∧ c.host.data = none then
      .more { c with state := .sniLen, dst := some (.buf, 0), size := 2 }
    else if c.p 0 = 0 ∧ c.p 1 = 16 ∧ c.alpn.data = none then
      .more { c with state := .alpnLen, dst := some (.buf, 0), size := 2 }
    else if c.p 0 = 0 ∧ c.p 1 = 43 then
      .more { c with state := .supverLen, dst := some (.buf, 0), size := 1 }
    else .more { c with state := .ext, dst := none, size := c.p 2 * 256 + c.p 3 }
  | .sniLen =>
    .more { c with ext := c.p 0 * 256 + c.p 1, state := .sniHostHead, dst := some (.buf, 0), size := 3 }
  | .sniHostHead =>
    let size := c.p 1 * 256 + c.p 2
    if c.p 0 ≠ 0 then .done .declined
    else if c.ext < 3 + size then .done .declined
    else if !pool.host then .done .error
    else .more { c with
      size := size, ext := c.ext - (3 + size), host := { c.host with data := some ⟨size, []⟩ }, state := .sniHost
      dst := some (.host, 0) }
  | .sniHost =>
    .more { c with
      host := { c.host with len := c.p 1 * 256 + c.p 2 }, state := .ext, dst := none, size := c.ext }
  | .alpnLen =>
    let ext := c.p 0 * 256 + c.p 1
    if !pool.alpn then .done .error
    else .more { c with
      ext := ext, alpn := { c.alpn with data := some ⟨ext, []⟩ }, state := .alpnProtoLen, dst := some (.buf, 0)
      size := 1 }
  | .alpnProtoLen =>
    let size := c.p 0
    if size = 0 then .done .declined
    else if c.ext < 1 + size then .done .declined
    else .more { c with
      size := size, ext := c.ext - (1 + size), state := .alpnProtoData, dst := some (.alpn, c.alpn.len) }
  | .alpnProtoData =>
    let len := c.alpn.len + c.p 0
    if c.ext ≠ 0 then
      -- ctx->alpn.data[ctx->alpn.len++] = ','
      match c.alpn.data.bind (·.write len [44]) with
      | none => .done .fault
      | some m => .more { c with
          alpn := ⟨len + 1, some m⟩, state := .alpnProtoLen, dst := some (.buf, 0), size := 1 }
    else .more { c with alpn := { c.alpn with len := len }, state := .ext, dst := none, size := 0 }
  | .supverLen =>
    .more { c with version := { c.version with data := [3, 4] }, state := .ext, dst := none, size := c.p 0 }

def State.rank : State → ℕ
  | .sniHostHead => 3
  | .sidLen | .csLen | .cmLen | .extHeader | .sniHost | .alpnProtoData | .supverLen => 2
  | _ => 1

/-- How many switches at most come before bytes are taken in. -/
def Ctx.rank (c : Ctx) : ℕ := if c.size ≠ 0 then 0 else c.state.rank

theorem rank_le (c : Ctx) : c.rank ≤ c.state.rank := by
  unfold Ctx.rank
  split
  · exact Nat.zero_le _
  · exact le_rfl

theorem rank_of_size {c : Ctx} (h : c.size ≠ 0) : c.rank = 0 := if_pos h

theorem next_rank {pool : Pool} {c c' : Ctx} (hsize : c.size = 0) (h : next pool c = .more c') :
    c'.rank < c.rank := by
  have hc : c.rank = c.state.rank := if_neg (by simp [hsize])
  rw [hc]
  unfold next at h
  cases hstate : c.state <;> rw [hstate] at h <;> dsimp only at h
  case alpnProtoData =>
    split at h
    · split at h
      · cases h
      · cases h
        exact lt_of_eq_of_lt (rank_of_size one_ne_zero) (by decide)
    · cases h
      exact lt_of_le_of_lt (rank_le _) (Nat.lt_succ_self 1)
  case alpnProtoLen =>
    split_ifs at h with hzero
    cases h
    exact lt_of_eq_of_lt (rank_of_size hzero) (by decide)
  all_goals
    (try split_ifs at h) <;> cases h <;>
      first
      | exact lt_of_eq_of_lt (rank_of_size (Nat.succ_ne_zero _)) (by decide)
      | exact lt_of_le_of_lt (rank_le _) (Nat.lt_succ_self _)

/-- A copy changes nothing but the blocks and the destination. -/
theorem copy_fields {c c' : Ctx} {bytes : List UInt8} (h : c.copy bytes = some c') :
    c'.size = c.size ∧ c'.left = c.left ∧ c'.state = c.state := by
  unfold Ctx.copy at h
  split at h
  · obtain rfl := Option.some.inj h
    exact ⟨rfl, rfl, rfl⟩
  · rename_i target off hdst
    obtain ⟨d, hd, rfl⟩ := Option.map_eq_some_iff.mp h
    cases target <;> obtain ⟨m, -, rfl⟩ := Option.map_eq_some_iff.mp hd <;> exact ⟨rfl, rfl, rfl⟩

theorem take_fields {c c' : Ctx} {bytes : List UInt8} (h : c.take bytes = some c') :
    c'.size = c.size - bytes.length ∧ c'.state = c.state := by
  obtain ⟨d, hd, h⟩ := Option.bind_eq_some_iff.mp h
  obtain ⟨hsize, -, hstate⟩ := copy_fields hd
  split at h
  · cases h
  · obtain rfl := Option.some.inj h
    exact ⟨by rw [← hsize], hstate⟩

/-- What is still to be parsed gets smaller. -/
theorem parse_smaller {pool : Pool} {c c' c'' : Ctx} {bytes : List UInt8} (htake : c.take (bytes.take c.size) = some c')
    (hsize : c'.size = 0) (hnext : next pool c' = .more c'') :
    Prod.Lex (· < ·) (· < ·) ((bytes.drop c.size).length, c''.rank) (bytes.length, c.rank) := by
  obtain ⟨hrest, hstate⟩ := take_fields htake
  rw [List.length_take] at hrest
  rw [List.length_drop]
  by_cases hzero : c.size = 0
  · have hrank := next_rank hsize hnext
    have hsame : c'.rank = c.rank := by rw [Ctx.rank, Ctx.rank, hsize, hzero, hstate]
    rw [hzero, Nat.sub_zero]
    exact Prod.Lex.right _ (hsame ▸ hrank)
  · exact Prod.Lex.left _ _ (by omega)

/-- `ngx_stream_ssl_preread_parse_record`. -/
def ngxStreamSslPrereadParseRecord (pool : Pool) (c : Ctx) (bytes : List UInt8) : Progress Ctx Result :=
  match _htake : c.take (bytes.take c.size) with
  | none => .done .fault
  | some c' =>
    if _hsize : c'.size ≠ 0 then .more c'
    else
      match _hnext : next pool c' with
      | .done r => .done r
      | .more c'' =>
        if c''.left < c''.size then .done .declined
        else ngxStreamSslPrereadParseRecord pool c'' (bytes.drop c.size)
termination_by (bytes.length, c.rank)
decreasing_by exact parse_smaller _htake (not_not.mp _hsize) _hnext

/-- `ngx_stream_session_t`, as far as the handler knows it: whether the directive is on, whether the connection is a
stream, what was read so far, and the context with the offset of `ctx->pos`. -/
structure Session where
  enabled : Bool
  stream : Bool
  buffer : Option (List UInt8) := none
  ctx : Option (Ctx × ℕ) := none
  deriving DecidableEq, Repr

/-- The loop of the handler over the records; what is left begins with a record that is not there as a whole. -/
def prereadRecords (pool : Pool) (c : Ctx) : List UInt8 → Progress (Ctx × List UInt8) Result
  | p0 :: p1 :: p2 :: p3 :: p4 :: rest =>
    let len := p3.toNat * 256 + p4.toNat
    if p0 &&& 0x80 ≠ 0 ∧ p2 = 1 ∧ (p3 = 0 ∨ p3 = 3) then
      .done (.ok { c with version := { c.version with data := [p3, p4] } })
    else if p0 ≠ 0x16 then .done .declined
    else if p1 ≠ 3 then .done .declined
    else if rest.length < len then .more (c, p0 :: p1 :: p2 :: p3 :: p4 :: rest)
    else
      match ngxStreamSslPrereadParseRecord pool c (rest.take len) with
      | .done r => .done r
      | .more c => prereadRecords pool c (rest.drop len)
  | rest => .more (c, rest)
termination_by bytes => bytes.length

/-- `ngx_stream_ssl_preread_handler`. -/
def ngxStreamSslPrereadHandler (pool : Pool) (s : Session) : NgxInt × Session :=
  if !s.enabled then (.declined, s)
  else if !s.stream then (.declined, s)
  else
    match s.buffer with
    | none => (.again, s)
    | some buffer =>
      if s.ctx.isNone && !pool.ctx then (.error, s)
      else
        let ctx := s.ctx.getD ({}, 0)
        match prereadRecords pool ctx.1 (buffer.drop ctx.2) with
        | .more (c, rest) => (.again, { s with ctx := some (c, buffer.length - rest.length) })
        | .done (.ok c) => (.ok, { s with ctx := some (c, ctx.2) })
        | .done .declined => (.declined, { s with ctx := none })
        | .done .error => (.error, { s with ctx := some ctx })
        | .done .fault => (.abort, s)

/-- What was read is put at the end of the buffer. -/
def Session.recv (s : Session) (bytes : List UInt8) : Session := { s with buffer := some (s.buffer.getD [] ++ bytes) }

/-- The handler, called until it has an answer: at first, and after every read. -/
def preread (pool : Pool) (s : Session) : List (List UInt8) → NgxInt × Session
  | [] => ngxStreamSslPrereadHandler pool s
  | bytes :: reads =>
    let res := ngxStreamSslPrereadHandler pool s
    if res.1 = .again then preread pool (res.2.recv bytes) reads else res

/-! ### TLS records -/

/-- A handshake record, which is not empty. -/
structure Record where
  minor : UInt8
  data : List UInt8
  nonempty : data ≠ []
  fits : data.length < 65536

/-- The record on the wire. -/
def Record.bytes (r : Record) : List UInt8 :=
  [0x16, 3, r.minor, UInt8.ofNat (r.data.length / 256), UInt8.ofNat r.data.length] ++ r.data

/-- The answer for the session: on `NGX_OK` with the server name, the protocols and the version. -/
def answer (res : NgxInt × Session) : NgxInt × Option (List UInt8 × List UInt8 × List UInt8) :=
  (res.1, if res.1 = .ok then res.2.ctx.map fun ctx => (ctx.1.host.bytes, ctx.1.alpn.bytes, ctx.1.version.data) else none)

end NginxDtls.Preread
