import NginxDtls.Resolver

/-! The processing of a response: `ngx_resolver_process_response`, `ngx_resolver_process_a`,
`ngx_resolver_process_srv` and `ngx_resolver_process_ptr`. Each goes over the answers twice, first with checks and then
without. -/

namespace NginxDtls.Dns

open Reading

/-- What a response is about: its length, number, code, number of answers, the bit for a truncated one, and where the
answers start. -/
structure Answers where
  n : ℕ
  ident : ℕ
  code : ℕ
  nan : ℕ
  trunc : Bool
  ans : ℕ
  deriving DecidableEq, Repr

/-- What a response leads to: how it ends, the resolver, and what others do. -/
abbrev Outcome := Exit × Resolver × List Effect

/-! ### Addresses -/

/-- The end of the first pass: the addresses, and the last alias. -/
inductive AEnd where
  | exit (e : Exit)
  | scanned (naddrs : ℕ) (cname : Option ℕ)
  deriving DecidableEq, Repr

/-- The first pass over the answers of an A or AAAA response, with the smallest time to live so far. -/
def scanA (n qtype : ℕ) : ℕ → ℕ → ℕ → Option ℕ → ℕ → Read (AEnd × ℕ)
  | 0, _, naddrs, cname, ttl => pure (.scanned naddrs cname, ttl)
  | a + 1, i, naddrs, cname, ttl => do
    let scan ← readRecord n i
    match scan with
    | .short => pure (.exit shortResponse, ttl)
    | .invalidName => pure (.exit (.dropped "invalid name in DNS response"), ttl)
    | .record r =>
      if r.cls ≠ 1 then pure (.exit (.dropped "unexpected RR class in DNS response"), ttl)
      else
        let ttl := min ttl r.ttl
        if r.type = ngxResolveA then
          if qtype ≠ ngxResolveA then pure (.exit (.dropped "unexpected A record in DNS response"), ttl)
          else if r.len ≠ 4 then pure (.exit (.dropped "invalid A record in DNS response"), ttl)
          else if n < r.data + 4 then pure (.exit shortResponse, ttl)
          else scanA n qtype a (r.data + r.len) (naddrs + 1) cname ttl
        else if r.type = ngxResolveAaaa then
          if qtype ≠ ngxResolveAaaa then pure (.exit (.dropped "unexpected AAAA record in DNS response"), ttl)
          else if r.len ≠ 16 then pure (.exit (.dropped "invalid AAAA record in DNS response"), ttl)
          else if n < r.data + 16 then pure (.exit shortResponse, ttl)
          else scanA n qtype a (r.data + r.len) (naddrs + 1) cname ttl
        else if r.type = ngxResolveCname then scanA n qtype a (r.data + r.len) naddrs (some r.data) ttl
        else scanA n qtype a (r.data + r.len) naddrs cname ttl

/-- The second pass, which collects the addresses. -/
def collectAddrs (n naddrs : ℕ) : ℕ → ℕ → List (List UInt8) → Read (Option (List (List UInt8)))
  | 0, _, addrs => pure (some addrs)
  | a + 1, i, addrs => do
    let record ← readChecked n i
    match record with
    | none => pure none
    | some (type, data, len) =>
      if type = ngxResolveA ∨ type = ngxResolveAaaa then do
        let addr ← bytesFrom data (if type = ngxResolveA then 4 else 16)
        let addrs := addrs ++ [addr]
        if addrs.length = naddrs then pure (some addrs) else collectAddrs n naddrs a (data + len) addrs
      else collectAddrs n naddrs a (data + len) addrs

namespace Node

def queryOf (rn : Node) (qtype : ℕ) : Option ℕ := if qtype = ngxResolveAaaa then rn.query6 else rn.query

def naddrsOf (rn : Node) (qtype : ℕ) : ℕ := if qtype = ngxResolveAaaa then rn.naddrs6 else rn.naddrs

/-- The addresses of the other kind. -/
def otherNaddrs (rn : Node) (qtype : ℕ) : ℕ := if qtype = ngxResolveAaaa then rn.naddrs else rn.naddrs6

def tcpOf (rn : Node) (qtype : ℕ) : Bool := if qtype = ngxResolveAaaa then rn.tcp6 else rn.tcp

def setTcp (rn : Node) (qtype : ℕ) : Node :=
  if qtype = ngxResolveAaaa then { rn with tcp6 := true } else { rn with tcp := true }

def setNaddrs (rn : Node) (qtype naddrs : ℕ) : Node :=
  if qtype = ngxResolveAaaa then { rn with naddrs6 := naddrs } else { rn with naddrs := naddrs }

def setAddrs (rn : Node) (qtype : ℕ) (addrs : List (List UInt8)) : Node :=
  if qtype = ngxResolveAaaa then { rn with u6 := addrs, naddrs6 := addrs.length % 65536 }
  else { rn with u := .addrs addrs, naddrs := addrs.length % 65536 }

/-- The addresses of a node, of both kinds. -/
def allAddrs (rn : Node) : List (List UInt8) :=
  (match rn.u with
    | .addrs addrs => addrs.take rn.naddrs
    | _ => []) ++ rn.u6.take rn.naddrs6

end Node

variable {K : Type} [DecidableEq K]

/-- A node is kept until it expires: what it waited for is there. -/
def Tree.settle (t : Tree K) (k : K) (rn : Node) : Tree K :=
  let t := (t.dequeue k).set k rn
  { t with expire := k :: t.expire }

def Resolver.validUntil (r : Resolver) (ttl : ℕ) : ℕ := r.now + if r.valid ≠ 0 then r.valid else ttl

/-- The waiting requests are told the code of an error. -/
def failWaiting (r : Resolver) (rn : Node) (code : ℕ) : List Effect :=
  rn.waiting.map fun ctx => .handler ctx.id code (r.now + if r.valid ≠ 0 then r.valid else 10) []

/-- The `export` of addresses. -/
def exportAddrs (alloc : Site → Bool) (r : Resolver) (k : List UInt8) (rn : Node) : Outcome :=
  if rn.naddrs + rn.naddrs6 ≠ 1 ∨ rn.naddrs ≠ 1 then
    if !alloc .export then (.noMemory, { r with names := r.names.set k rn }, [])
    else exported
  else exported
where
  exported : Outcome :=
    let valid := r.validUntil rn.ttl
    (.resolved,
      { r with names := r.names.settle k { rn with
        valid := valid, expire := r.now + r.expire, waiting := [], query := none, query6 := none } },
      rn.waiting.map fun ctx => .handler ctx.id 0 valid rn.allAddrs)

/-- The waiting requests go on with the name that an alias stands for, or are told that there is none. -/
def followCname (waiting : List Waiter) (name : List UInt8) : List Effect :=
  match waiting with
  | [] => []
  | ctx :: rest =>
    if ngxResolverMaxRecursion ≤ ctx.recursion then
      waiting.map fun ctx => .handler ctx.id ngxResolveNxdomain 0 []
    else [.resolveName ({ ctx with recursion := ctx.recursion + 1 } :: rest) name]

/-- A node becomes an alias. -/
def Node.alias (r : Resolver) (rn : Node) (name : List UInt8) : Node :=
  { rn with
    u := .cname name, valid := r.validUntil rn.ttl, expire := r.now + r.expire, query := none, query6 := none
    waiting := [] }

/-- The addresses of a response are stored in the node, or there is no memory for them. -/
def storeAddrs (alloc : Site → Bool) (m : Answers) (qtype : ℕ) (rn : Node) (naddrs : ℕ) : Read (Option Node) :=
  if naddrs = 0 then pure (some rn)
  else if naddrs ≠ 1 ∧ !alloc .addrs then pure none
  else do
    let addrs ← collectAddrs m.n naddrs m.nan m.ans []
    pure (addrs.map fun addrs => rn.setAddrs qtype addrs)

/-- `ngx_resolver_process_a` after the first pass over the answers. -/
def finishA (alloc : Site → Bool) (r : Resolver) (m : Answers) (qtype : ℕ) (k : List UInt8) (rn : Node) (naddrs : ℕ)
    (cname : Option ℕ) : Read Outcome := do
  let stored ← storeAddrs alloc m qtype rn naddrs
  match stored with
  | none => pure (.noMemory, { r with names := r.names.set k rn }, [])
  | some rn =>
    if naddrs ≠ 0 ∧ rn.otherNaddrs qtype = unanswered then
      pure (.waiting, { r with names := r.names.set k rn }, [])
    else
      let rn := if rn.naddrsOf qtype = unanswered then rn.setNaddrs qtype 0 else rn
      if rn.naddrs ≠ unanswered ∧ rn.naddrs6 ≠ unanswered ∧ 0 < rn.naddrs + rn.naddrs6 then
        pure (exportAddrs alloc r k rn)
      else
        match cname with
        | none => pure (.nothing, { r with names := r.names.set k rn }, [])
        | some src =>
          if rn.naddrs = unanswered ∨ rn.naddrs6 = unanswered then
            pure (.waiting, { r with names := r.names.set k rn }, [])
          else do
            let name ← ngxResolverCopy (alloc .cname) src m.n
            match name with
            | none => pure (.failed, { r with names := r.names.set k rn }, [])
            | some name =>
              pure (.cname, { r with names := r.names.settle k (rn.alias r name) }, followCname rn.waiting name)

/-- The answer to an A or AAAA query that has a code, or no answers. -/
def failA (alloc : Site → Bool) (r : Resolver) (qtype : ℕ) (k : List UInt8) (rn : Node) (code nan : ℕ) :
    Option Outcome :=
  let empty := rn.setNaddrs qtype 0
  if code = 0 ∧ nan = 0 ∧ rn.otherNaddrs qtype = unanswered then
    some (.waiting, { r with names := r.names.set k empty }, [])
  else if code = 0 ∧ nan = 0 ∧ rn.otherNaddrs qtype ≠ 0 then some (exportAddrs alloc r k empty)
  else
    let code := if code = 0 ∧ nan = 0 then ngxResolveNxdomain else code
    if code = 0 then none
    else if rn.otherNaddrs qtype = unanswered then
      some (.waiting, { r with names := r.names.set k { empty with code := code } }, [])
    else some (.dnsError, { r with names := r.names.delete k }, failWaiting r rn code)

/-- `ngx_resolver_process_a` before the first pass over the answers: what it leads to, or the node that the answers are
for. -/
def checkA (alloc : Site → Bool) (r : Resolver) (m : Answers) (qtype : ℕ) : Read (Outcome ⊕ List UInt8 × Node) := do
  let name ← ngxResolverCopy (alloc .question) 12 m.n
  match name with
  | none => pure (.inl (.failed, r, []))
  | some k =>
    match r.names.node k with
    | none => pure (.inl (.unexpected, r, []))
    | some rn =>
      if rn.queryOf qtype = none ∨ rn.naddrsOf qtype ≠ unanswered then pure (.inl (.unexpected, r, []))
      else if m.trunc ∧ rn.tcpOf qtype then pure (.inl (.failed, r, []))
      else if rn.queryOf qtype ≠ some m.ident then pure (.inl (.unexpected, r, []))
      else if m.trunc then
        if rn.waiting = [] then pure (.inl (.truncated, { r with names := r.names.delete k }, []))
        else
          let names := (r.names.dequeue k).set k { rn.setTcp qtype with expire := r.now + r.resendTimeout }
          pure (.inl (.truncated, { r with names := { names with resend := k :: names.resend } },
            [.tcpQuery rn.lastConnection (qtype = ngxResolveAaaa)]))
      else
        let code := if m.code = 0 then rn.code else m.code
        match failA alloc r qtype k rn code m.nan with
        | some res => pure (.inl res)
        | none => pure (.inr (k, rn))

/-- `ngx_resolver_process_a`. -/
def ngxResolverProcessA (alloc : Site → Bool) (r : Resolver) (m : Answers) (qtype : ℕ) : Read Outcome := do
  let check ← checkA alloc r m qtype
  match check with
  | .inl res => pure res
  | .inr (k, rn) => do
    let scan ← scanA m.n qtype m.nan m.ans 0 none rn.ttl
    let rn := { rn with ttl := scan.2 }
    match scan.1 with
    | .exit e => pure (e, { r with names := r.names.set k rn }, [])
    | .scanned naddrs cname => finishA alloc r m qtype k rn naddrs cname

/-! ### Services -/

inductive SrvEnd where
  | exit (e : Exit)
  | scanned (nsrvs : ℕ) (cname : Option ℕ)
  deriving DecidableEq, Repr

/-- The first pass over the answers of an SRV response. -/
def scanSrv (n : ℕ) : ℕ → ℕ → ℕ → Option ℕ → ℕ → Read (SrvEnd × ℕ)
  | 0, _, nsrvs, cname, ttl => pure (.scanned nsrvs cname, ttl)
  | a + 1, i, nsrvs, cname, ttl => do
    let scan ← readRecord n i
    match scan with
    | .short => pure (.exit shortResponse, ttl)
    | .invalidName => pure (.exit (.dropped "invalid name DNS response"), ttl)
    | .record r =>
      if r.cls ≠ 1 then pure (.exit (.dropped "unexpected RR class in DNS response"), ttl)
      else
        let ttl := min ttl r.ttl
        if r.type = ngxResolveSrv then
          if n < r.data + 6 then pure (.exit shortResponse, ttl)
          else do
            let target ← copyScan n 128 (r.data + 6) 0
            if target.isNone then pure (.exit .failed, ttl)
            else scanSrv n a (r.data + r.len) (nsrvs + 1) cname ttl
        else if r.type = ngxResolveCname then scanSrv n a (r.data + r.len) nsrvs (some r.data) ttl
        else scanSrv n a (r.data + r.len) nsrvs cname ttl

/-- The second pass, which collects the services, and whether it came to its end. -/
def collectSrvs (alloc : Site → Bool) (n : ℕ) : ℕ → ℕ → List Srv → Read (Bool × List Srv)
  | 0, _, srvs => pure (true, srvs)
  | a + 1, i, srvs => do
    let record ← readChecked n i
    match record with
    | none => pure (false, srvs)
    | some (type, data, len) =>
      if type = ngxResolveSrv then do
        let priority ← rd16 data
        let weight ← rd16 (data + 2)
        let port ← rd16 (data + 4)
        let weight := if weight = 0 then 1 else weight
        let name ← ngxResolverCopy (alloc (.target srvs.length)) (data + 6) n
        match name with
        | none => pure (false, srvs ++ [⟨[], priority, weight, port⟩])
        | some name => collectSrvs alloc n a (data + len) (srvs ++ [⟨name, priority, weight, port⟩])
      else collectSrvs alloc n a (data + len) srvs

/-- `ngx_resolver_process_srv` after the first pass over the answers. -/
def finishSrv (alloc : Site → Bool) (r : Resolver) (m : Answers) (k : List UInt8) (rn : Node) (nsrvs : ℕ)
    (cname : Option ℕ) : Read Outcome :=
  if nsrvs ≠ 0 then
    if !alloc .srvs then pure (.noMemory, { r with srvs := r.srvs.set k rn }, [])
    else do
      let res ← collectSrvs alloc m.n m.nan m.ans []
      let srvs := res.2 ++ List.replicate (nsrvs - res.2.length) ⟨[], 0, 0, 0⟩
      let rn := { rn with u := .srvs srvs, nsrvs := nsrvs % 65536 }
      if !res.1 then pure (.failed, { r with srvs := r.srvs.set k rn }, [])
      else
        let sorted := srvs.mergeSort fun one two => one.priority ≤ two.priority
        pure (.resolved,
          { r with srvs := r.srvs.settle k { rn with
            u := .srvs sorted, query := none, valid := r.validUntil rn.ttl, expire := r.now + r.expire
            waiting := [] } },
          rn.waiting.map fun ctx => .resolveSrvNames ctx.id sorted)
  else
    let rn := { rn with nsrvs := 0 }
    match cname with
    | none => pure (.nothing, { r with srvs := r.srvs.set k rn }, [])
    | some src => do
      let name ← ngxResolverCopy (alloc .cname) src m.n
      match name with
      | none => pure (.failed, { r with srvs := r.srvs.set k rn }, [])
      | some name => pure (.cname, { r with srvs := r.srvs.settle k (rn.alias r name) }, followCname rn.waiting name)

/-- `ngx_resolver_process_srv` before the first pass over the answers. -/
def checkSrv (alloc : Site → Bool) (r : Resolver) (m : Answers) : Read (Outcome ⊕ List UInt8 × Node) := do
  let name ← ngxResolverCopy (alloc .question) 12 m.n
  match name with
  | none => pure (.inl (.failed, r, []))
  | some k =>
    match r.srvs.node k with
    | none => pure (.inl (.unexpected, r, []))
    | some rn =>
      if rn.query = none then pure (.inl (.unexpected, r, []))
      else if m.trunc ∧ rn.tcp then pure (.inl (.failed, r, []))
      else if rn.query ≠ some m.ident then pure (.inl (.unexpected, r, []))
      else if m.trunc then
        if rn.waiting = [] then pure (.inl (.truncated, { r with srvs := r.srvs.delete k }, []))
        else
          let srvs := (r.srvs.dequeue k).set k { rn with tcp := true, expire := r.now + r.resendTimeout }
          pure (.inl (.truncated, { r with srvs := { srvs with resend := k :: srvs.resend } },
            [.tcpQuery rn.lastConnection false]))
      else
        let code := if m.code = 0 then rn.code else m.code
        let code := if code = 0 ∧ m.nan = 0 then ngxResolveNxdomain else code
        if code ≠ 0 then pure (.inl (.dnsError, { r with srvs := r.srvs.delete k }, failWaiting r rn code))
        else pure (.inr (k, rn))

/-- `ngx_resolver_process_srv`. -/
def ngxResolverProcessSrv (alloc : Site → Bool) (r : Resolver) (m : Answers) : Read Outcome := do
  let check ← checkSrv alloc r m
  match check with
  | .inl res => pure res
  | .inr (k, rn) => do
    let scan ← scanSrv m.n m.nan m.ans 0 none rn.ttl
    let rn := { rn with ttl := scan.2 }
    match scan.1 with
    | .exit e => pure (e, { r with srvs := r.srvs.set k rn }, [])
    | .scanned nsrvs cname => finishSrv alloc r m k rn nsrvs cname

/-! ### Names of addresses -/

/-- `ngx_atoi`. -/
def ngxAtoi : ℕ → ℕ → ℕ → Read (Option ℕ)
  | 0, _, value => pure (some value)
  | n + 1, i, value => do
    let c ← rd i
    if c < 48 ∨ 57 < c then pure none
    else if 922337203685477580 ≤ value ∧ (922337203685477580 < value ∨ 7 < c - 48) then pure none
    else ngxAtoi n (i + 1) (value * 10 + (c - 48))

/-- `ngx_hextoi` of one byte. -/
def ngxHextoi (ch : ℕ) : Option ℕ :=
  if 48 ≤ ch ∧ ch ≤ 57 then some (ch - 48)
  else if 97 ≤ ch ||| 0x20 ∧ ch ||| 0x20 ≤ 102 then some ((ch ||| 0x20) - 97 + 10)
  else none

/-- `ngx_strcasecmp` of the message at `i` with a string and its zero byte, when it gives 0. -/
def ngxStrcasecmp : List UInt8 → ℕ → Read Bool
  | [], _ => pure true
  | c2 :: rest, i => do
    let c1 ← byteAt i
    if ngxTolower c1 = ngxTolower c2 then
      if ngxTolower c1 = 0 then pure true else ngxStrcasecmp rest (i + 1)
    else pure false

/-- `"\7in-addr\4arpa"` with its zero byte. -/
def inAddrArpa : List UInt8 := [7, 105, 110, 45, 97, 100, 100, 114, 4, 97, 114, 112, 97, 0]

/-- `"\3ip6\4arpa"` with its zero byte. -/
def ip6Arpa : List UInt8 := [3, 105, 112, 54, 4, 97, 114, 112, 97, 0]

/-- The four octets of an IPv4 address, the last one first: the address and where the name goes on. -/
def readOctets : ℕ → ℕ → ℕ → ℕ → Read (Option (ℕ × ℕ))
  | 0, _, i, addr => pure (some (addr, i))
  | k + 1, mask, i, addr => do
    let len ← rd i
    if len = 0 then pure none
    else do
      let octet ← ngxAtoi len (i + 1) 0
      match octet with
      | none => pure none
      | some octet =>
        if 255 < octet then pure none
        else readOctets k (mask + 8) (i + 1 + len) (addr + octet * 2 ^ mask)

/-- A hexadecimal digit that is a label of its own. -/
def readNibble (i : ℕ) : Read (Option ℕ) := do
  let len ← rd i
  if len ≠ 1 then pure none
  else do
    let ch ← rd (i + 1)
    pure (ngxHextoi ch)

/-- The sixteen bytes of an IPv6 address, the last one first. -/
def readAddr6 : ℕ → ℕ → List UInt8 → Read (Option (List UInt8 × ℕ))
  | 0, i, addr6 => pure (some (addr6, i))
  | k + 1, i, addr6 => do
    let lo ← readNibble i
    match lo with
    | none => pure none
    | some lo => do
      let hi ← readNibble (i + 2)
      match hi with
      | none => pure none
      | some hi => readAddr6 k (i + 4) (UInt8.ofNat (lo + hi * 16) :: addr6)

/-- The first pass over the answers of a PTR response: where the name is, with its time to live. -/
def scanPtr (n : ℕ) : ℕ → ℕ → Read (Exit ⊕ ℕ × ℕ)
  | 0, _ => pure (.inl .nothing)
  | a + 1, i => do
    let scan ← readRecord n i
    match scan with
    | .short => pure (.inl shortResponse)
    | .invalidName => pure (.inl (.dropped "invalid name in DNS response"))
    | .record r =>
      if r.cls ≠ 1 then pure (.inl (.dropped "unexpected RR class in DNS response"))
      else if r.type = ngxResolvePtr then pure (.inr (r.data, r.ttl))
      else scanPtr n a (r.data + r.len)

/-- `ngx_strncmp` of two strings of one length gives 0. -/
def strncmpEq (a b : List UInt8) : Bool := a.takeWhile (· ≠ 0) = b.takeWhile (· ≠ 0)

/-- `ngx_resolver_process_ptr` from the label `valid` on, with the tree that the address belongs to. -/
def finishPtr (alloc : Site → Bool) (r : Resolver) (m : Answers) (t : Tree K) (k : K) (i : ℕ) :
    Read (Exit × Tree K × List Effect) :=
  match t.node k with
  | none => pure (.unexpected, t, [])
  | some rn =>
    if rn.query = none then pure (.unexpected, t, [])
    else if rn.query ≠ some m.ident then pure (.unexpected, t, [])
    else
      let code := if m.code = 0 ∧ m.nan = 0 then ngxResolveNxdomain else m.code
      if code ≠ 0 then pure (.dnsError, t.delete k, failWaiting r rn code)
      else do
        let scan ← scanPtr m.n m.nan (i + 4)
        match scan with
        | .inl e => pure (e, t, [])
        | .inr (src, ttl) => do
          let name ← ngxResolverCopy (alloc .ptr) src m.n
          match name with
          | none => pure (.failed, t, [])
          | some name =>
            let same := name.length = rn.name.length ∧ strncmpEq name rn.name
            let rn' := if same then rn else { rn with name := name }
            if ¬same ∧ !alloc .dup then pure (.noMemory, t.set k rn', [])
            else
              let valid := r.validUntil ttl
              pure (.resolved,
                t.settle k { rn' with valid := valid, expire := r.now + r.expire, waiting := [] },
                rn.waiting.map fun ctx => .resolvedAddr ctx.id valid name)

/-- The address of a name in `in-addr.arpa`, and where the name ends. -/
def readInAddr (i : ℕ) : Read (Option (ℕ × ℕ)) := do
  let octets ← readOctets 4 0 i 0
  match octets with
  | none => pure none
  | some (addr, i) => do
    let arpa ← ngxStrcasecmp inAddrArpa i
    pure (if arpa then some (addr, i + inAddrArpa.length) else none)

/-- The address of a name in `ip6.arpa`, and where the name ends. -/
def readIp6Addr (i : ℕ) : Read (Option (List UInt8 × ℕ)) := do
  let nibbles ← readAddr6 16 i []
  match nibbles with
  | none => pure none
  | some (addr6, i) => do
    let arpa ← ngxStrcasecmp ip6Arpa i
    pure (if arpa then some (addr6, i + ip6Arpa.length) else none)

/-- `ngx_resolver_process_ptr`. -/
def ngxResolverProcessPtr (alloc : Site → Bool) (r : Resolver) (m : Answers) : Read Outcome := do
  let name ← ngxResolverCopy (alloc .question) 12 m.n
  if name.isNone then pure (.failed, r, [])
  else do
    let addr ← readInAddr 12
    match addr with
    | some (addr, i) => do
      let res ← finishPtr alloc r m r.addrs addr i
      pure (res.1, { r with addrs := res.2.1 }, res.2.2)
    | none => do
      let addr6 ← readIp6Addr 12
      match addr6 with
      | some (addr6, i) => do
        let res ← finishPtr alloc r m r.addrs6 addr6 i
        pure (res.1, { r with addrs6 := res.2.1 }, res.2.2)
      | none => pure (.dropped "invalid in-addr.arpa or ip6.arpa name in DNS response", r, [])

/-! ### Responses -/

/-- The loop over the labels of the question: where the zero byte is, or how it ends. -/
def questionEnd (n : ℕ) : ℕ → ℕ → Read (Exit ⊕ ℕ)
  | 0, _ => pure (.inl shortResponse)
  | k + 1, i =>
    if i < n then do
      let b ← rd i
      if b &&& 0xc0 ≠ 0 then pure (.inl (.dropped "unexpected compression pointer in DNS response"))
      else if b = 0 then pure (.inr i)
      else questionEnd n k (i + 1 + b)
    else pure (.inl shortResponse)

/-- `ngx_resolver_process_response` of a message of `n` bytes up to the type of the question. -/
def checkResponse (n : ℕ) (tcp : Bool) : Read (Exit ⊕ Answers × ℕ) :=
  if n < 12 then pure (.inl shortResponse)
  else do
    let ident ← rd16 0
    let flags ← rd16 2
    let nqs ← rd16 4
    let nan ← rd16 6
    let trunc := flags &&& 0x0200 ≠ 0
    if flags &&& 0xf870 ≠ 0x8000 ∨ trunc ∧ tcp then pure (.inl (.dropped "invalid DNS response"))
    else
      let code := flags &&& 0xf
      if code = ngxResolveFormerr then pure (.inl .dnsError)
      else if ngxResolveRefused < code then pure (.inl .dnsError)
      else if nqs ≠ 1 then pure (.inl (.dropped "invalid number of questions in DNS response"))
      else do
        let question ← questionEnd n (n + 1) 12
        match question with
        | .inl e => pure (.inl e)
        | .inr i =>
          if i = 12 then pure (.inl (.dropped "zero-length domain name in DNS response"))
          else if n < i + 1 + 4 + nan * 12 then pure (.inl shortResponse)
          else do
            let qtype ← rd16 (i + 1)
            let qclass ← rd16 (i + 3)
            if qclass ≠ 1 then pure (.inl (.dropped "unknown query class in DNS response"))
            else pure (.inr
              ({ n := n, ident := ident, code := code, nan := nan, trunc := trunc, ans := i + 5 }, qtype))

/-- `ngx_resolver_process_response` of a message of `n` bytes. -/
def ngxResolverProcessResponse (alloc : Site → Bool) (r : Resolver) (n : ℕ) (tcp : Bool) : Read Outcome := do
  let check ← checkResponse n tcp
  match check with
  | .inl e => pure (e, r, [])
  | .inr (m, qtype) =>
    if qtype = ngxResolveA ∨ qtype = ngxResolveAaaa then ngxResolverProcessA alloc r m qtype
    else if qtype = ngxResolveSrv then ngxResolverProcessSrv alloc r m
    else if qtype = ngxResolvePtr then ngxResolverProcessPtr alloc r m
    else pure (.dropped "unknown query type in DNS response", r, [])

end NginxDtls.Dns
