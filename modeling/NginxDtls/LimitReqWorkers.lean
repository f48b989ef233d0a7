import NginxDtls.LimitReq
import NginxDtls.Run
import Mathlib.Tactic
import Mathlib.Algebra.BigOperators.Group.Finset.Basic

/-! Requests under the limits of several zones, in several workers. `ngx_http_limit_req_handler` looks up its keys zone after
zone and keeps a reference to each node in the context of its worker; once the last zone lets the request pass it is accounted
for in all of them, and otherwise the references are given back. A zone is locked for one lookup, one accounting or one
release, and between them other workers go on. -/

namespace NginxDtls.LimitReq

open LimitConn Run

/-! ### Requests -/

/-- `ngx_http_limit_req_limit_t` -/
structure Limit where
  zone : ℕ
  burst : ℕ
  delay : ℕ

/-- `ngx_http_limit_req_conf_t`. The parser of the directive rejects a second limit of one zone. -/
structure Conf where
  limits : List Limit
  statusCode : ℕ
  dryRun : Bool
  distinct : (limits.map Limit.zone).Nodup

/-- `r->main->limit_req_status`, where zero is `unset`. -/
inductive Status where
  | unset
  | passed
  | delayed
  | rejected
  | delayedDryRun
  | rejectedDryRun
  deriving DecidableEq, Repr

/-- What the handler returns. -/
inductive Returned where
  | declined
  | again
  | internalServerError
  | status (code : ℕ)
  deriving DecidableEq, Repr

/-- A call of the handler: the limits of the location, the values of their keys unless `ngx_http_complex_value` fails, and the
status that the request has. -/
structure Call where
  conf : Conf
  key : ℕ → Option (List UInt8)
  status : Status

/-- The key of a limit is neither empty nor too long. -/
def Call.Usable (call : Call) (i : ℕ) : Prop := ∃ key ∈ call.key i, key.length ≠ 0 ∧ key.length ≤ 65535

/-! ### Workers -/

/-- Where a worker is in the handler: at a round of the loop over the limits, in `ngx_http_limit_req_account`, in
`ngx_http_limit_req_unlock`, or out of it. -/
inductive Pc where
  | looking (n : ℕ) (rc : Rc) (excess limit : ℕ)
  | accounting (n excess limit maxDelay : ℕ)
  | unlocking (n : ℕ) (returned : Returned) (status : Status)
  | returned (returned : Returned) (status : Status)
  deriving DecidableEq

/-- A worker: `ctx->node` of each zone, and the call of the handler. The model adds the references that the request holds, by
zone and node, and the zones in which it has been charged. -/
structure Worker where
  node : ℕ → Option ℕ
  call : Call
  pc : Pc
  held : List (ℕ × ℕ)
  charged : List ℕ

/-- The zones and the workers. -/
structure State (N : ℕ) where
  sh : ℕ → Shctx
  worker : Fin N → Worker

/-- A request comes to a worker that is not in the handler, or a worker goes on; then `now` is its clock, the slabs are for a
lookup, and `ready` tells whether the read event of the connection can be handled. -/
inductive Event (N : ℕ) where
  | start (w : Fin N) (call : Call)
  | step (w : Fin N) (now : ℕ) (slab slab' : Slab) (ready : Bool)

namespace Worker

/-- `(excess - delay) * 1000 / rate` -/
def delayOf (rate excess delay : ℕ) : ℕ := (excess - delay) * 1000 % 2 ^ 64 / rate

/-- Behind the loop of the handler. -/
def leave (rate : ℕ → ℕ) (worker : Worker) (n : ℕ) (rc : Rc) (excess limit : ℕ) : Worker :=
  match rc with
  | .declined => { worker with pc := .returned .declined worker.call.status }
  | .busy | .error =>
    if worker.call.conf.dryRun then { worker with pc := .unlocking n .declined .rejectedDryRun }
    else { worker with pc := .unlocking n (.status worker.call.conf.statusCode) .rejected }
  | .again | .ok =>
    let excess := if rc = .again then 0 else excess
    let delay := (worker.call.conf.limits[limit]?.map Limit.delay).getD 0
    let zone := (worker.call.conf.limits[limit]?.map Limit.zone).getD 0
    { worker with pc := .accounting n excess limit (if excess ≤ delay then 0 else delayOf (rate zone) excess delay) }

/-- A round of the loop of the handler. -/
def look (rate : ℕ → ℕ) (sh : ℕ → Shctx) (worker : Worker) (n : ℕ) (rc : Rc) (excess limit now : ℕ) (slab slab' : Slab) :
    Option ((ℕ → Shctx) × Worker) :=
  match worker.call.conf.limits[n]? with
  | none => some (sh, worker.leave rate n rc excess limit)
  | some l =>
    match worker.call.key n with
    | none => some (sh, { worker with pc := .unlocking n .internalServerError worker.call.status })
    | some key =>
      if key.length = 0 ∨ 65535 < key.length then some (sh, { worker with pc := .looking (n + 1) rc excess n })
      else do
        let looked ← ngxHttpLimitReqLookup (rate l.zone) l.burst (sh l.zone) (ngxCrc32Short key).toNat key now
          (n = worker.call.conf.limits.length - 1) slab slab'
        let sh := Function.update sh l.zone looked.sh
        let worker := match looked.node with
          | none => worker
          | some lr => { worker with
            node := Function.update worker.node l.zone (some lr), held := (l.zone, lr) :: worker.held }
        let worker := if looked.rc = .ok then { worker with charged := l.zone :: worker.charged } else worker
        if looked.rc = .again then some (sh, { worker with pc := .looking (n + 1) .again looked.excess n })
        else some (sh, worker.leave rate n looked.rc looked.excess n)

/-- The reference of a zone is given back. -/
def release (worker : Worker) (zone : ℕ) : Worker :=
  { worker with node := Function.update worker.node zone none, held := worker.held.filter fun r => r.1 ≠ zone }

/-- A round of the loop of `ngx_http_limit_req_account`, and what the handler does behind it. -/
def account (rate : ℕ → ℕ) (sh : ℕ → Shctx) (worker : Worker) (n excess limit maxDelay now : ℕ) (ready : Bool) :
    Option ((ℕ → Shctx) × Worker) :=
  match n with
  | 0 =>
    if maxDelay = 0 then some (sh, { worker with pc := .returned .declined .passed })
    else if worker.call.conf.dryRun then some (sh, { worker with pc := .returned .declined .delayedDryRun })
    else some (sh, { worker with pc := .returned (if ready then .again else .internalServerError) .delayed })
  | n + 1 => do
    let l ← worker.call.conf.limits[n]?
    match worker.node l.zone with
    | none => some (sh, { worker with pc := .accounting n excess limit maxDelay })
    | some lr =>
      let next := nextExcess (rate l.zone) now ((sh l.zone).node lr)
      let node := charge (rate l.zone) now ((sh l.zone).node lr)
      let sh := Function.update sh l.zone ((sh l.zone).setNode lr { node with count := node.count - 1 })
      let worker := { worker.release l.zone with charged := l.zone :: worker.charged }
      let delay := delayOf (rate l.zone) next l.delay
      if next ≤ l.delay then some (sh, { worker with pc := .accounting n excess limit maxDelay })
      else if delay > maxDelay then some (sh, { worker with pc := .accounting n next n delay })
      else some (sh, { worker with pc := .accounting n excess limit maxDelay })

/-- A round of the loop of `ngx_http_limit_req_unlock`, and what the handler returns behind it. -/
def unlock (sh : ℕ → Shctx) (worker : Worker) (n : ℕ) (returned : Returned) (status : Status) :
    Option ((ℕ → Shctx) × Worker) :=
  match n with
  | 0 => some (sh, { worker with pc := .returned returned status })
  | n + 1 => do
    let l ← worker.call.conf.limits[n]?
    match worker.node l.zone with
    | none => some (sh, { worker with pc := .unlocking n returned status })
    | some lr =>
      let node := (sh l.zone).node lr
      let sh := Function.update sh l.zone ((sh l.zone).setNode lr { node with count := node.count - 1 })
      some (sh, { worker.release l.zone with pc := .unlocking n returned status })

/-- A worker goes on. -/
def step (rate : ℕ → ℕ) (sh : ℕ → Shctx) (worker : Worker) (now : ℕ) (slab slab' : Slab) (ready : Bool) :
    Option ((ℕ → Shctx) × Worker) :=
  match worker.pc with
  | .looking n rc excess limit => worker.look rate sh n rc excess limit now slab slab'
  | .accounting n excess limit maxDelay => worker.account rate sh n excess limit maxDelay now ready
  | .unlocking n returned status => worker.unlock sh n returned status
  | .returned _ _ => some (sh, worker)

/-- `ngx_http_limit_req_handler` is called. A worker that is in it goes on instead. -/
def start (worker : Worker) (call : Call) : Worker :=
  match worker.pc with
  | .returned _ _ =>
    { worker with
      call := call
      pc := if call.status ≠ .unset then .returned .declined call.status else .looking 0 .declined 0 0
      charged := [] }
  | _ => worker

end Worker

variable {N : ℕ}

/-- One step of one worker. -/
def step (rate : ℕ → ℕ) (st : State N) : Event N → Option (State N)
  | .start w call => some { st with worker := Function.update st.worker w ((st.worker w).start call) }
  | .step w now slab slab' ready => do
    let (sh, worker) ← (st.worker w).step rate st.sh now slab slab' ready
    some { sh := sh, worker := Function.update st.worker w worker }

end NginxDtls.LimitReq
