import NginxDtls.RbtreeOrder
import NginxDtls.Core

/-! The connection limits of `ngx_stream_limit_conn_module.c`. A zone of shared memory has a node with a counter for
each key, in a red-black tree by the checksum of the key and then by its bytes. A session is counted under the keys of
several zones, with a cleanup record in its pool for each of them. -/

namespace NginxDtls.LimitConn

open Zipper RbTree Run

/-! ### Keys -/

/-- `ngx_crc32_table16`. -/
def ngxCrc32Table16 : Array UInt32 :=
  #[0x00000000, 0x1db71064, 0x3b6e20c8, 0x26d930ac, 0x76dc4190, 0x6b6b51f4, 0x4db26158, 0x5005713c,
    0xedb88320, 0xf00f9344, 0xd6d6a3e8, 0xcb61b38c, 0x9b64c2b0, 0x86d3d2d4, 0xa00ae278, 0xbdbdf21c]

/-- Half a byte of `ngx_crc32_short`. -/
def crc32Half (crc : UInt32) (half : UInt8) : UInt32 :=
  ngxCrc32Table16.getD ((crc ^^^ half.toUInt32) &&& 0xf).toNat 0 ^^^ (crc >>> 4)

def ngxCrc32Short (p : List UInt8) : UInt32 :=
  (p.foldl (fun crc c => crc32Half (crc32Half crc (c &&& 0xf)) (c >>> 4)) 0xffffffff) ^^^ 0xffffffff

/-- `ngx_memcmp` of as many bytes as both have. -/
def ngxMemcmp : List UInt8 → List UInt8 → Ordering
  | c1 :: s1, c2 :: s2 => if c1 < c2 then .lt else if c2 < c1 then .gt else ngxMemcmp s1 s2
  | _, _ => .eq

def ngxMemn2cmp (s1 s2 : List UInt8) : Ordering :=
  let n := if s1.length ≤ s2.length then s1.length else s2.length
  let z : Ordering := if s1.length ≤ s2.length then .lt else .gt
  let m := ngxMemcmp (s1.take n) (s2.take n)
  if m ≠ .eq ∨ s1.length = s2.length then m else z

/-! ### Zones -/

/-- `ngx_stream_limit_conn_node_t`, and the limit of the last session that was counted. -/
structure LimitConnNode where
  data : List UInt8
  conn : ℕ
  limit : ℕ
  deriving DecidableEq, Repr

/-- The sentinel of the tree of a zone. -/
def limitConnSentinel : ℕ := 1

/-- The tree of a zone, what the memory of its slab holds at each node, and the nodes that are allocated. -/
structure Zone where
  rbtree : RbTree
  node : ℕ → LimitConnNode
  used : List ℕ

/-- The fuel of the loops. -/
def Zone.fuel (zone : Zone) : ℕ := zone.used.length + 3

/-- Which way `ngx_stream_limit_conn_rbtree_insert_value` goes at `temp`. -/
def Zone.goesLeft (zone : Zone) (key : ℕ → ℕ) (node temp : ℕ) : Bool :=
  if key node < key temp then true
  else if key node > key temp then false
  else ngxMemn2cmp (zone.node node).data (zone.node temp).data = .lt

def ngxStreamLimitConnRbtreeInsertValue (zone : Zone) (fuel : ℕ) (t : RbTree) (temp node : ℕ) : Option RbTree :=
  rbtreeInsertBelow (zone.goesLeft t.key) fuel t temp node

/-- The loop of `ngx_stream_limit_conn_lookup`; the inner `none` is `NULL`. -/
def lookupFrom (zone : Zone) (key : List UInt8) (hash : ℕ) : ℕ → ℕ → Option (Option ℕ)
  | 0, _ => none
  | fuel + 1, node =>
    if node = zone.rbtree.sentinel then some none
    else if hash < zone.rbtree.key node then lookupFrom zone key hash fuel (zone.rbtree.child .left node)
    else if hash > zone.rbtree.key node then lookupFrom zone key hash fuel (zone.rbtree.child .right node)
    else
      let rc := ngxMemn2cmp key (zone.node node).data
      if rc = .eq then some (some node)
      else lookupFrom zone key hash fuel (if rc = .lt then zone.rbtree.child .left node else zone.rbtree.child .right node)

/-- `ngx_stream_limit_conn_lookup` with the checksum of the key. -/
def ngxStreamLimitConnLookup (zone : Zone) (key : List UInt8) : Option (Option ℕ) :=
  lookupFrom zone key (ngxCrc32Short key).toNat zone.fuel zone.rbtree.root

/-- A new node for the key. -/
def Zone.insert (zone : Zone) (key : List UInt8) (node limit : ℕ) : Option Zone := do
  let zone := { zone with node := Function.update zone.node node ⟨key, 1, limit⟩ }
  let tree ← ngxRbtreeInsert (ngxStreamLimitConnRbtreeInsertValue zone) zone.fuel
    (zone.rbtree.setKey node (ngxCrc32Short key).toNat) node
  some { zone with rbtree := tree, used := node :: zone.used }

/-- `lc->conn++`. -/
def Zone.enter (zone : Zone) (node limit : ℕ) : Zone :=
  let lc := zone.node node
  { zone with node := Function.update zone.node node { lc with conn := (lc.conn + 1) % 65536, limit := limit } }

/-- `lc->conn--`, and the node goes with the last connection. -/
def Zone.leave (zone : Zone) (node : ℕ) : Option Zone :=
  let lc := zone.node node
  let conn := (lc.conn + 65535) % 65536
  let zone := { zone with node := Function.update zone.node node { lc with conn := conn } }
  if conn = 0 then do
    let tree ← ngxRbtreeDelete zone.fuel zone.rbtree node
    some { zone with rbtree := tree, used := zone.used.erase node }
  else some zone

/-- A session is counted at a node, or it is one too many or there is no memory for the node. -/
inductive Counted where
  | rejected
  | counted (zone : Zone) (node : ℕ)

/-- The part of the handler under the lock of a zone. -/
def Zone.count (zone : Zone) (key : List UInt8) (limit : ℕ) (slab : Option ℕ) : Option Counted := do
  let found ← ngxStreamLimitConnLookup zone key
  match found, slab with
  | none, none => some .rejected
  | none, some node => do
    let zone ← zone.insert key node limit
    some (.counted zone node)
  | some node, _ =>
    if limit ≤ (zone.node node).conn then some .rejected else some (.counted (zone.enter node limit) node)

/-! ### Cleanup -/

/-- A record of `pool->cleanup`: one of this module with its data, or of another module. -/
inductive Cleanup where
  | limitConn (zone node : ℕ)
  | other
  deriving DecidableEq, Repr

/-- `ngx_stream_limit_conn_cleanup`. -/
def ngxStreamLimitConnCleanup (zones : ℕ → Zone) (zone node : ℕ) : Option (ℕ → Zone) := do
  let left ← (zones zone).leave node
  some (Function.update zones zone left)

/-- `ngx_stream_limit_conn_cleanup_all`. -/
def ngxStreamLimitConnCleanupAll (zones : ℕ → Zone) : List Cleanup → Option ((ℕ → Zone) × List Cleanup)
  | [] => some (zones, [])
  | .other :: rest => some (zones, .other :: rest)
  | .limitConn zone node :: rest => do
    let zones ← ngxStreamLimitConnCleanup zones zone node
    ngxStreamLimitConnCleanupAll zones rest

/-- The cleanup records that `ngx_destroy_pool` runs. -/
def ngxDestroyPool (zones : ℕ → Zone) : List Cleanup → Option (ℕ → Zone)
  | [] => some zones
  | .other :: rest => ngxDestroyPool zones rest
  | .limitConn zone node :: rest => do
    let zones ← ngxStreamLimitConnCleanup zones zone node
    ngxDestroyPool zones rest

/-! ### The handler -/

/-- `ngx_stream_limit_conn_limit_t`. The parser of the directive rejects other limits. -/
structure Limit where
  zone : ℕ
  conn : ℕ
  pos : 0 < conn
  le : conn ≤ 65535

/-- `ngx_stream_limit_conn_conf_t`. The parser of the directive rejects a second limit of one zone. -/
structure Conf where
  limits : List Limit
  dryRun : Bool
  distinct : (limits.map Limit.zone).Nodup

/-- What the handler meets at a limit: the value of the key unless that fails, the node that the slab gives if one is
needed, and whether there is memory for the cleanup record. -/
structure Met where
  key : Option (List UInt8)
  slab : Option ℕ
  cleanup : Bool

/-- `s->limit_conn_status`. -/
inductive Status where
  | unset
  | passed
  | rejected
  | rejectedDryRun
  deriving DecidableEq, Repr

inductive Returned where
  | declined
  | error
  | unavailable
  deriving DecidableEq, Repr

/-- What the handler returns and leaves, with the zones and keys under which it has let the session pass. -/
structure Passed where
  returned : Returned
  zones : ℕ → Zone
  cleanup : List Cleanup
  status : Status
  admitted : List (ℕ × List UInt8)

/-- The loop of the handler over the limits. -/
def limitLoop (dryRun : Bool) (met : ℕ → Met) : List Limit → (ℕ → Zone) → List Cleanup → Status →
    List (ℕ × List UInt8) → Option Passed
  | [], zones, pool, status, admitted => some ⟨.declined, zones, pool, status, admitted⟩
  | limit :: limits, zones, pool, status, admitted =>
    match (met limit.zone).key with
    | none => some ⟨.error, zones, pool, status, admitted⟩
    | some key =>
      if key.length = 0 ∨ 255 < key.length then limitLoop dryRun met limits zones pool status admitted
      else do
        let counted ← (zones limit.zone).count key limit.conn (met limit.zone).slab
        match counted with
        | .rejected => do
          let undone ← ngxStreamLimitConnCleanupAll zones pool
          some (if dryRun then ⟨.declined, undone.1, undone.2, .rejectedDryRun, []⟩
            else ⟨.unavailable, undone.1, undone.2, .rejected, []⟩)
        | .counted zone node =>
          let zones := Function.update zones limit.zone zone
          if (met limit.zone).cleanup then
            limitLoop dryRun met limits zones (.limitConn limit.zone node :: pool) .passed
              ((limit.zone, key) :: admitted)
          else some ⟨.error, zones, pool, .passed, admitted⟩

/-- `ngx_stream_limit_conn_handler` of a session with the given cleanup records. -/
def ngxStreamLimitConnHandler (conf : Conf) (met : ℕ → Met) (zones : ℕ → Zone) (pool : List Cleanup) : Option Passed :=
  limitLoop conf.dryRun met conf.limits zones pool .unset []

/-- Every session that is counted also gets a cleanup record. -/
def RecordsFit (met : ℕ → Met) : List Limit → (ℕ → Zone) → Prop
  | [], _ => True
  | limit :: limits, zones =>
    match (met limit.zone).key with
    | none => True
    | some key =>
      if key.length = 0 ∨ 255 < key.length then RecordsFit met limits zones
      else
        match (zones limit.zone).count key limit.conn (met limit.zone).slab with
        | none => True
        | some .rejected => True
        | some (.counted zone _) =>
          (met limit.zone).cleanup = true ∧ RecordsFit met limits (Function.update zones limit.zone zone)

/-! ### Runs -/

/-- The pool of a session, whether the handler was called for it, and under what it was let pass. -/
structure Session where
  cleanup : List Cleanup
  called : Bool
  status : Status
  admitted : List (ℕ × List UInt8)

structure State where
  zones : ℕ → Zone
  live : List ℕ
  session : ℕ → Session

/-- A session starts, another module adds a cleanup record to its pool, the handler is called for it, or its pool is
destroyed. -/
inductive Event where
  | start (s : ℕ)
  | other (s : ℕ)
  | handler (s : ℕ) (conf : Conf) (met : ℕ → Met)
  | destroy (s : ℕ)

/-- The state after an event; absent if a loop of a tree did not end within its fuel. -/
def step (st : Option State) (event : Event) : Option State :=
  st.bind fun st => match event with
  | .start s =>
    some { st with live := s :: st.live, session := Function.update st.session s ⟨[], false, .unset, []⟩ }
  | .other s =>
    let session := st.session s
    some { st with session := Function.update st.session s { session with cleanup := .other :: session.cleanup } }
  | .handler s conf met =>
    (ngxStreamLimitConnHandler conf met st.zones (st.session s).cleanup).map fun passed =>
      { st with
        zones := passed.zones
        session := Function.update st.session s ⟨passed.cleanup, true, passed.status, passed.admitted⟩ }
  | .destroy s =>
    (ngxDestroyPool st.zones (st.session s).cleanup).map fun zones => { st with zones, live := st.live.erase s }

/-- Empty zones over whatever their memory holds. -/
def start (memory : ℕ → Zone) : State where
  zones := fun z => { memory z with rbtree := ngxRbtreeInit (memory z).rbtree limitConnSentinel, used := [] }
  live := []
  session := fun _ => ⟨[], false, .unset, []⟩

/-- The handler is called once for a session, and a slab gives memory that is not in use. -/
def State.Allows (st : State) : Event → Prop
  | .start s => s ∉ st.live
  | .other s => s ∈ st.live
  | .handler s conf met => s ∈ st.live ∧ (st.session s).called = false ∧
      ∀ limit ∈ conf.limits, ∀ node ∈ (met limit.zone).slab,
        node ≠ limitConnSentinel ∧ node ∉ (st.zones limit.zone).used
  | .destroy s => s ∈ st.live

/-- No call of the handler counts a session that it has no cleanup record for. -/
def State.NoLeak (st : State) : Event → Prop
  | .handler _ conf met => RecordsFit met conf.limits st.zones
  | _ => True

/-- The sessions that live and were let pass under the key. -/
def State.admitted (st : State) (zone : ℕ) (key : List UInt8) : ℕ :=
  st.live.countP fun s => (zone, key) ∈ (st.session s).admitted

/-- The counters are right: a key has a node if and only if there is a session under it; the node has their number,
which is within the limit that let the last of them pass. Every node is found by its key. -/
structure State.Exact (st : State) : Prop where
  stored : ∀ zone key, 0 < key.length → key.length ≤ 255 →
    ∃ found, ngxStreamLimitConnLookup (st.zones zone) key = some found ∧
      (found = none ∧ st.admitted zone key = 0 ∨
        ∃ node, found = some node ∧ 0 < ((st.zones zone).node node).conn ∧
          ((st.zones zone).node node).conn = st.admitted zone key ∧
          ((st.zones zone).node node).conn ≤ ((st.zones zone).node node).limit)
  nodes : ∀ zone, ∀ node ∈ (st.zones zone).used, 0 < ((st.zones zone).node node).conn ∧
    ngxStreamLimitConnLookup (st.zones zone) ((st.zones zone).node node).data = some (some node)

end NginxDtls.LimitConn
