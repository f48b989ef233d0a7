import Mathlib.Tactic

/-! The values that the modelled functions share: the return codes of `ngx_core.h` and socket
addresses. -/

namespace NginxDtls

/-- The return codes `NGX_OK` to `NGX_ABORT`. -/
inductive NgxInt where
  | ok
  | error
  | again
  | busy
  | done
  | declined
  | abort
  deriving DecidableEq, Repr

/-- The number a return code stands for; the tree code tests its sign. -/
def NgxInt.toInt : NgxInt → Int
  | .ok => 0
  | .error => -1
  | .again => -2
  | .busy => -3
  | .done => -4
  | .declined => -5
  | .abort => -6

/-- A socket address: port and IPv4 address, the four fields of `sockaddr_in6`, or a path. The port
is in host order; addresses are in network order. -/
inductive Sockaddr where
  | inet (port : UInt16) (addr : Vector UInt8 4)
  | inet6 (port : UInt16) (flowinfo : UInt32) (addr : Vector UInt8 16) (scopeId : UInt32)
  | unix (path : List UInt8)
  deriving DecidableEq

/-- `INADDR_NONE` -/
def inaddrNone : UInt32 := 0xffffffff

end NginxDtls
