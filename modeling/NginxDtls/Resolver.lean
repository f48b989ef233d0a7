import NginxDtls.Reading
import Mathlib.Tactic

/-! The reading of DNS messages in `ngx_resolver.c`: names with compression pointers, the names and the headers of
answer records, and the nodes and the queues that a response changes. Every byte of the message is read through its
index. -/

namespace NginxDtls.Dns

open Reading

/-- `(hi << 8) + lo`. -/
def rd16 (i : ℕ) : Read ℕ := do
  let hi ← rd i
  let lo ← rd (i + 1)
  return hi * 256 + lo

/-! ### Types and codes -/

def ngxResolveA : ℕ := 1
def ngxResolveCname : ℕ := 5
def ngxResolvePtr : ℕ := 12
def ngxResolveAaaa : ℕ := 28
def ngxResolveSrv : ℕ := 33
def ngxResolveFormerr : ℕ := 1
def ngxResolveNxdomain : ℕ := 3
def ngxResolveRefused : ℕ := 5
def ngxResolverMaxRecursion : ℕ := 50

/-- `ngx_tolower`. -/
def ngxTolower (c : UInt8) : UInt8 := if 65 ≤ c.toNat ∧ c.toNat ≤ 90 then c ||| 0x20 else c

/-- `ngx_strlow`. -/
def ngxStrlow (src : List UInt8) : List UInt8 := src.map ngxTolower

/-! ### Names -/

/-- The first pass of `ngx_resolver_copy`, with the labels and pointers that it may still follow: the length of the
name, or `none` for an invalid one. -/
def copyScan (last : ℕ) : ℕ → ℕ → ℕ → Read (Option ℕ)
  | 0, _, _ => pure none
  | k + 1, p, len => do
    let n ← rd p
    if n = 0 then pure (some len)
    else if n &&& 0xc0 ≠ 0 then
      if n &&& 0xc0 ≠ 0xc0 then pure none
      else if last ≤ p + 1 then pure none
      else
        let lo ← rd (p + 1)
        let p := (n &&& 0x3f) * 256 + lo
        if last ≤ p then pure none else copyScan last k p len
    else
      let p := p + 1 + n
      if last ≤ p then pure none else copyScan last k p (len + 1 + n)

/-- The second pass, which copies: what was copied before is put in front. -/
def copyLabels : ℕ → ℕ → List UInt8 → Read (Option (List UInt8))
  | 0, _, _ => pure none
  | k + 1, src, dst => do
    let n ← rd src
    if n = 0 then pure (some dst.dropLast)
    else if n &&& 0xc0 ≠ 0 then
      let lo ← rd (src + 1)
      copyLabels k ((n &&& 0x3f) * 256 + lo) dst
    else
      let label ← bytesFrom (src + 1) n
      copyLabels k (src + 1 + n) (dst ++ ngxStrlow label ++ [46])

/-- `ngx_resolver_copy` with a name to copy to; `alloc` tells whether there is memory for it. -/
def ngxResolverCopy (alloc : Bool) (src last : ℕ) : Read (Option (List UInt8)) := do
  let res ← copyScan last 128 src 0
  if res.isNone then pure none
  else if res = some 0 then pure (some [])
  else if !alloc then pure none
  else copyLabels 128 src []

/-- How the name of a record ends. -/
inductive NameEnd where
  | short
  | root (i : ℕ)
  | pointer (i : ℕ)
  deriving DecidableEq, Repr

/-- The loop over the labels of a name that starts at `i`; `k` labels are enough for the message. -/
def skipName (n : ℕ) : ℕ → ℕ → Read NameEnd
  | 0, _ => pure .short
  | k + 1, i =>
    if i < n then do
      let b ← rd i
      if b &&& 0xc0 ≠ 0 then pure (.pointer (i + 2))
      else if b = 0 then pure (.root (i + 1))
      else skipName n k (i + 1 + b)
    else pure .short

/-- The loop over the labels of a name that was checked before. -/
def skipChecked : ℕ → ℕ → Read (Option ℕ)
  | 0, _ => pure none
  | k + 1, i => do
    let b ← rd i
    if b &&& 0xc0 ≠ 0 then pure (some (i + 2))
    else if b = 0 then pure (some (i + 1))
    else skipChecked k (i + 1 + b)

/-! ### Records -/

/-- `ngx_resolver_an_t`, and where the data of the record starts. -/
structure Record where
  type : ℕ
  cls : ℕ
  ttl : ℕ
  len : ℕ
  data : ℕ
  deriving DecidableEq, Repr

/-- What is found where a record is expected. -/
inductive Scan where
  | short
  | invalidName
  | record (r : Record)
  deriving DecidableEq, Repr

/-- `an` at `i`. A time to live with the top bit set is taken as zero. -/
def readHeader (i : ℕ) : Read Record := do
  let type ← rd16 i
  let cls ← rd16 (i + 2)
  let len ← rd16 (i + 8)
  let hi ← rd16 (i + 4)
  let lo ← rd16 (i + 6)
  let ttl := hi * 65536 + lo
  return { type := type, cls := cls, ttl := if 2147483648 ≤ ttl then 0 else ttl, len := len, data := i + 10 }

/-- The name and the header of the record that starts at `start`. -/
def readRecord (n start : ℕ) : Read Scan := do
  let name ← skipName n (n + 1) start
  match name with
  | .short => pure .short
  | .root i =>
    if i - start < 2 then pure .invalidName
    else if n ≤ i + 10 then pure .short
    else do return .record (← readHeader i)
  | .pointer i =>
    if n ≤ i + 10 then pure .short
    else do return .record (← readHeader i)

/-- The name and the header of a record that was checked before: its type, and where its data is. -/
def readChecked (n start : ℕ) : Read (Option (ℕ × ℕ × ℕ)) := do
  let name ← skipChecked (n + 1) start
  match name with
  | none => pure none
  | some i => do
    let type ← rd16 i
    let len ← rd16 (i + 8)
    return some (type, i + 10, len)

/-! ### Nodes -/

/-- `ngx_resolver_ctx_t`, by a number. -/
structure Waiter where
  id : ℕ
  recursion : ℕ
  deriving DecidableEq, Repr

/-- `ngx_resolver_srv_t`. -/
structure Srv where
  name : List UInt8
  priority : ℕ
  weight : ℕ
  port : ℕ
  deriving DecidableEq, Repr

/-- The union `u` of a node. -/
inductive NodeData where
  | nothing
  | addrs (addrs : List (List UInt8))
  | cname (name : List UInt8)
  | srvs (srvs : List Srv)
  deriving DecidableEq, Repr

/-- `(u_short) -1`, the number of addresses before there was a response. -/
def unanswered : ℕ := 65535

/-- `ngx_resolver_node_t`. Of a query, the number that its response has to bear. -/
structure Node where
  name : List UInt8 := []
  query : Option ℕ := none
  query6 : Option ℕ := none
  u : NodeData := .nothing
  u6 : List (List UInt8) := []
  code : ℕ := 0
  naddrs : ℕ := unanswered
  naddrs6 : ℕ := unanswered
  nsrvs : ℕ := 0
  ttl : ℕ := 4294967295
  valid : ℕ := 0
  expire : ℕ := 0
  tcp : Bool := false
  tcp6 : Bool := false
  lastConnection : ℕ := 0
  waiting : List Waiter := []
  deriving DecidableEq, Repr

/-- A tree of nodes with its two queues. -/
structure Tree (K : Type) where
  node : K → Option Node
  resend : List K
  expire : List K

variable {K : Type} [DecidableEq K]

def Tree.set (t : Tree K) (k : K) (rn : Node) : Tree K := { t with node := Function.update t.node k (some rn) }

/-- `ngx_queue_remove(&rn->queue)`. -/
def Tree.dequeue (t : Tree K) (k : K) : Tree K := { t with resend := t.resend.erase k, expire := t.expire.erase k }

/-- The node is deleted from the tree and its queue. -/
def Tree.delete (t : Tree K) (k : K) : Tree K :=
  { t.dequeue k with node := Function.update t.node k none }

/-- `ngx_resolver_t`. -/
structure Resolver where
  names : Tree (List UInt8)
  srvs : Tree (List UInt8)
  addrs : Tree ℕ
  addrs6 : Tree (List UInt8)
  now : ℕ
  expire : ℕ
  valid : ℕ
  resendTimeout : ℕ

/-- What a response makes others do: a handler is called, a query is sent again over TCP, the name that an alias stands
for is resolved, or the names of services are. -/
inductive Effect where
  | handler (ctx : ℕ) (state : ℕ) (valid : ℕ) (addrs : List (List UInt8))
  | tcpQuery (connection : ℕ) (v6 : Bool)
  | resolveName (ctxs : List Waiter) (name : List UInt8)
  | resolveSrvNames (ctx : ℕ) (srvs : List Srv)
  | resolvedAddr (ctx : ℕ) (valid : ℕ) (name : List UInt8)
  deriving DecidableEq, Repr

/-- The allocations while a response is processed. -/
inductive Site where
  | question
  | addrs
  | export
  | cname
  | srvs
  | target (a : ℕ)
  | ptr
  | dup
  deriving DecidableEq, Repr

/-- How the processing of a response ends. -/
inductive Exit where
  /-- dropped for what is in the message, with the text of the error -/
  | dropped (err : String)
  /-- an error of the server -/
  | dnsError
  /-- not the response to a query of the resolver -/
  | unexpected
  | noMemory
  /-- one response of two -/
  | waiting
  | truncated
  | failed
  | resolved
  | cname
  | nothing
  deriving DecidableEq, Repr

def shortResponse : Exit := .dropped "short DNS response"

end NginxDtls.Dns
