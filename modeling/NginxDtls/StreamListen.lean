import NginxDtls.Checked
import NginxDtls.InetRoundTrip
import NginxDtls.InsertionSort

/-! The listen addresses of one port: `ngx_stream_optimize_servers` lays them out over listening sockets, and
`ngx_stream_init_connection` finds the address of a connection among those of its socket. -/

namespace NginxDtls.Sockets

open Checked

variable {Ctx : Type}

/-! ### Addresses -/

/-- `sa_family` -/
inductive SaFamily where
  | inet
  | inet6
  | unix
  deriving DecidableEq, Repr

def saFamily : Sockaddr → SaFamily
  | .inet _ _ => .inet
  | .inet6 _ _ _ _ => .inet6
  | .unix _ => .unix

def ngxInetWildcard : Sockaddr → Bool
  | .inet _ addr => addr = #v[0, 0, 0, 0]
  | .inet6 _ _ addr _ => addr = Vector.replicate 16 0
  | .unix _ => false

/-- `((struct sockaddr_in *) sa)->sin_addr`; in a Unix domain address the bytes there are of the path. There is none in
an address of IPv6. -/
def sinAddr : Sockaddr → Option (Vector UInt8 4)
  | .inet _ addr => some addr
  | .inet6 _ _ _ _ => none
  | .unix path => some (Vector.ofFn fun i => path.getD (i + 2) 0)

/-- `((struct sockaddr_in6 *) sa)->sin6_addr`, which only an address of IPv6 has room for. -/
def sin6Addr : Sockaddr → Option (Vector UInt8 16)
  | .inet6 _ _ addr _ => some addr
  | .inet _ _ => none
  | .unix _ => none

/-! ### Listening sockets -/

/-- What a listening socket takes over from the directive. -/
structure SocketOptions where
  datagram : Bool
  backlog : ℤ
  rcvbuf : ℤ
  sndbuf : ℤ
  ipv6only : Bool
  reuseport : Bool
  soKeepalive : ℕ
  tcpKeepidle : ℤ
  tcpKeepintvl : ℤ
  tcpKeepcnt : ℤ
  fastopen : ℤ

/-- `ngx_stream_listen_t`, the `opt` of an `ngx_stream_conf_addr_t` -/
structure StreamListen (Ctx : Type) where
  sockaddr : Sockaddr
  addrText : List UInt8
  ctx : Ctx
  bind : Bool
  wildcard : Bool
  ssl : Bool
  proxyProtocol : Bool
  options : SocketOptions

/-- `ngx_stream_addr_conf_t` -/
structure AddrConf (Ctx : Type) where
  ctx : Ctx
  addrText : List UInt8
  ssl : Bool
  proxyProtocol : Bool

/-- An array of `ngx_stream_in_addr_t` or of `ngx_stream_in6_addr_t` -/
inductive InAddrs (Ctx : Type) where
  | inet (addrs : List (Vector UInt8 4 × AddrConf Ctx))
  | inet6 (addrs : List (Vector UInt8 16 × AddrConf Ctx))

/-- `ngx_stream_port_t` -/
structure StreamPort (Ctx : Type) where
  addrs : InAddrs Ctx
  naddrs : ℕ

/-- `ngx_listening_t`. `errorLog` is the server whose `error_log` it has. -/
structure Listening (Ctx : Type) where
  sockaddr : Sockaddr
  wildcard : Bool
  options : SocketOptions
  errorLog : Ctx
  servers : StreamPort Ctx

/-- `cmp(one, two) > 0` for `ngx_stream_cmp_conf_addrs` -/
def ngxStreamCmpConfAddrs (first second : StreamListen Ctx) : Bool :=
  if first.wildcard then true
  else if second.wildcard then false
  else if first.bind && !second.bind then false
  else if !first.bind && second.bind then true
  else false

/-- `ngx_sort`: without memory for an element nothing is sorted. -/
def ngxSort {α : Type} (memory : Bool) (after : α → α → Bool) (base : List α) : List α :=
  if memory then InsertionSort.sort after base else base

def StreamListen.addrConf (opt : StreamListen Ctx) : AddrConf Ctx :=
  { ctx := opt.ctx, addrText := opt.addrText, ssl := opt.ssl, proxyProtocol := opt.proxyProtocol }

/-- The loop of `ngx_stream_add_addrs` and of `ngx_stream_add_addrs6`. -/
def addAddrs {α : Type} (address : Sockaddr → Option α) :
    ℕ → List (StreamListen Ctx) → Checked Unit (List (α × AddrConf Ctx))
  | 0, _ => pure []
  | _ + 1, [] => throw .undefined
  | n + 1, opt :: addr =>
    match address opt.sockaddr with
    | none => throw .undefined
    | some a => do
      let addrs ← addAddrs address n addr
      pure ((a, opt.addrConf) :: addrs)

def ngxStreamAddAddrs (naddrs : ℕ) (addr : List (StreamListen Ctx)) : Checked Unit (InAddrs Ctx) := do
  let addrs ← addAddrs sinAddr naddrs addr
  pure (.inet addrs)

def ngxStreamAddAddrs6 (naddrs : ℕ) (addr : List (StreamListen Ctx)) : Checked Unit (InAddrs Ctx) := do
  let addrs ← addAddrs sin6Addr naddrs addr
  pure (.inet6 addrs)

/-- The switch over the family of the socket. -/
def addPortAddrs (sa : Sockaddr) (naddrs : ℕ) (addr : List (StreamListen Ctx)) : Checked Unit (InAddrs Ctx) :=
  match saFamily sa with
  | .inet6 => ngxStreamAddAddrs6 naddrs addr
  | _ => ngxStreamAddAddrs naddrs addr

/-- The body of the loop of `ngx_stream_optimize_servers`: the socket for `addr[i]`. -/
def createListening (memory : Sockaddr → Bool) (addr : List (StreamListen Ctx)) (i : ℕ) (opt : StreamListen Ctx) :
    Checked Unit (Listening Ctx) :=
  if !memory opt.sockaddr then throw (.returned ())
  else
    match addr with
    | [] => throw .undefined
    | first :: _ => do
      let addrs ← addPortAddrs opt.sockaddr (i + 1) addr
      pure { sockaddr := opt.sockaddr, wildcard := opt.wildcard, options := opt.options, errorLog := first.ctx,
             servers := { addrs, naddrs := i + 1 } }

/-- The loop of `ngx_stream_optimize_servers`, with `last - i` first: a step on either takes one from it. -/
def optimizeLoop (bindWildcard : Bool) (memory : Sockaddr → Bool) :
    ℕ → List (StreamListen Ctx) → ℕ → Checked Unit (List (Listening Ctx))
  | 0, _, _ => pure []
  | n + 1, addr, i =>
    match addr[i]? with
    | none => throw .undefined
    | some opt =>
      if bindWildcard && !opt.bind then optimizeLoop bindWildcard memory n addr (i + 1)
      else do
        let ls ← createListening memory addr i opt
        let sockets ← optimizeLoop bindWildcard memory n addr.tail i
        pure (ls :: sockets)

/-- `ngx_stream_optimize_servers` for one port. `memory` is there for the listening socket of an address and what
belongs to it, `sortMemory` for the sort. -/
def ngxStreamOptimizeServers (sortMemory : Bool) (memory : Sockaddr → Bool) (addrs : List (StreamListen Ctx)) :
    Checked Unit (List (Listening Ctx)) :=
  let addr := ngxSort sortMemory ngxStreamCmpConfAddrs addrs
  match addr.getLast? with
  | none => throw .undefined
  | some opt =>
    if opt.wildcard then optimizeLoop true memory addr.length (addr.dropLast ++ [{ opt with bind := true }]) 0
    else optimizeLoop false memory addr.length addr 0

/-! ### Connections -/

/-- A connection that was accepted. `getsockname` is none where the call fails, or there is no memory for its result. -/
structure Connection (Ctx : Type) where
  listening : Listening Ctx
  localSockaddr : Sockaddr
  localSocklen : ℕ
  getsockname : Option Sockaddr

/-- The test `addr == 0` of `ngx_connection_local_sockaddr` -/
def localAddrKnown : Sockaddr → Bool
  | .inet6 _ _ addr _ => addr.toList.any (· ≠ 0)
  | .unix _ => true
  | .inet _ addr => addr ≠ #v[0, 0, 0, 0]

/-- `c->local_sockaddr` after `ngx_connection_local_sockaddr` -/
def ngxConnectionLocalSockaddr (c : Connection Ctx) : Option Sockaddr :=
  if c.localSocklen ≠ 0 && localAddrKnown c.localSockaddr then some c.localSockaddr else c.getsockname

/-- The loop over all addresses but the last one; it stands on the address found. -/
def searchAddrs {α : Type} [DecidableEq α] (a : α) : ℕ → List (α × AddrConf Ctx) → Checked Unit (AddrConf Ctx)
  | _, [] => throw .undefined
  | 0, (_, conf) :: _ => pure conf
  | n + 1, (addr, conf) :: addrs => if addr = a then pure conf else searchAddrs a n addrs

/-- An address of the family in the array of it. -/
def findAddr (naddrs : ℕ) (addrs : InAddrs Ctx) (sa : Sockaddr) : Checked Unit (AddrConf Ctx) :=
  match addrs, sin6Addr sa, sinAddr sa with
  | .inet6 addr6, some a, _ => searchAddrs a (naddrs - 1) addr6
  | .inet addr, _, some a => searchAddrs a (naddrs - 1) addr
  | _, _, _ => throw .undefined

/-- The configuration of the address on top of an array. -/
def firstAddr (addrs : InAddrs Ctx) (sa : Sockaddr) : Checked Unit (AddrConf Ctx) :=
  match saFamily sa, addrs with
  | .inet6, .inet6 ((_, conf) :: _) => pure conf
  | .inet, .inet ((_, conf) :: _) => pure conf
  | .unix, .inet ((_, conf) :: _) => pure conf
  | _, _ => throw .undefined

/-- `addr_conf` of `ngx_stream_init_connection`, or the connection is closed. -/
def ngxStreamInitConnection (c : Connection Ctx) : Checked Unit (AddrConf Ctx) :=
  let port := c.listening.servers
  if port.naddrs > 1 then
    match ngxConnectionLocalSockaddr c with
    | none => throw (.returned ())
    | some sa => findAddr port.naddrs port.addrs sa
  else firstAddr port.addrs c.localSockaddr

end NginxDtls.Sockets
