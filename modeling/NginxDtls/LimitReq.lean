import NginxDtls.CrcTree

/-! The request limits of `ngx_http_limit_req_module.c`. A zone of shared memory has a node for each key, in a red-black tree
and in a queue with the nodes that were used last at its head; a node stores the excess over the rate and the time it was
stored at. Rates, excesses and bursts are in thousandths of a request. -/

namespace NginxDtls.LimitReq

open Zipper RbTree CrcTree LimitConn

/-! ### Zones -/

/-- `ngx_http_limit_req_node_t`; the checksum of the key is in the tree. -/
structure LimitReqNode where
  data : List UInt8
  last : ℕ
  excess : ℕ
  count : ℤ

/-- The sentinel of the tree of a zone. -/
def limitReqSentinel : ℕ := 1

/-- `ngx_http_limit_req_shctx_t`, with what the memory of the slab holds at each node. The queue is written from its head. -/
structure Shctx where
  rbtree : RbTree
  node : ℕ → LimitReqNode
  queue : List ℕ

namespace Shctx

def data (sh : Shctx) (node : ℕ) : List UInt8 := (sh.node node).data

/-- The fuel of the loops over the tree. -/
def fuel (sh : Shctx) : ℕ := sh.queue.length + 3

def setNode (sh : Shctx) (node : ℕ) (lr : LimitReqNode) : Shctx := { sh with node := Function.update sh.node node lr }

/-- A node goes to the head of the queue. -/
def bump (sh : Shctx) (node : ℕ) : Shctx := { sh with queue := node :: sh.queue.erase node }

end Shctx

/-- An allocator, by the nodes that are in use. -/
structure Slab where
  alloc : List ℕ → Option ℕ
  fresh : ∀ used node, alloc used = some node → node ∉ used ∧ node ≠ limitReqSentinel

/-- `ngx_http_limit_req_rbtree_insert_value` -/
def ngxHttpLimitReqRbtreeInsertValue (sh : Shctx) : ℕ → RbTree → ℕ → ℕ → Option RbTree := insertValue sh.data

/-! ### The excess -/

/-- `(ngx_msec_int_t) (now - last)` -/
def msSince (now last : ℕ) : ℤ := Int.bmod ((now : ℤ) - last) (2 ^ 64)

/-- The milliseconds that are accounted for, where the clock may have gone back. -/
def elapsed (now last : ℕ) : ℕ :=
  if msSince now last < -60000 then 1
  else if msSince now last < 0 then 0
  else (msSince now last).toNat

/-- `(ngx_int_t) (excess - rate * ms / 1000 + more)` -/
def excessWith (rate excess ms more : ℕ) : ℤ :=
  Int.bmod ((excess : ℤ) - (rate * ms % 2 ^ 64 / 1000 : ℕ) + more) (2 ^ 64)

/-- The excess with the request at hand. -/
def nextExcess (rate now : ℕ) (lr : LimitReqNode) : ℕ :=
  if excessWith rate lr.excess (elapsed now lr.last) 1000 < 0 then 0
  else (excessWith rate lr.excess (elapsed now lr.last) 1000).toNat

/-- The node with the request accounted for. -/
def charge (rate now : ℕ) (lr : LimitReqNode) : LimitReqNode :=
  { lr with excess := nextExcess rate now lr, last := if elapsed now lr.last ≠ 0 then now else lr.last }

/-! ### Looking up a key -/

/-- What `ngx_http_limit_req_expire` asks of a node that it does not delete by force: a minute without requests, and no
excess left. -/
def Idle (rate now : ℕ) (lr : LimitReqNode) : Prop :=
  ¬|msSince now lr.last| < 60000 ∧ ¬excessWith rate lr.excess |msSince now lr.last|.toNat 0 > 0

instance (rate now : ℕ) (lr : LimitReqNode) : Decidable (Idle rate now lr) :=
  inferInstanceAs (Decidable (_ ∧ _))

/-- The loop of `ngx_http_limit_req_expire`, by the rounds that are left; the first one of three is by force. -/
def expireLoop (rate now : ℕ) : ℕ → Shctx → Option Shctx
  | 0, sh => some sh
  | left + 1, sh =>
    match sh.queue.getLast? with
    | none => some sh
    | some lr =>
      if (sh.node lr).count ≠ 0 then some sh
      else if left ≠ 2 ∧ ¬Idle rate now (sh.node lr) then some sh
      else do
        let tree ← ngxRbtreeDelete sh.fuel sh.rbtree lr
        expireLoop rate now left { sh with rbtree := tree, queue := sh.queue.dropLast }

/-- `ngx_http_limit_req_expire` -/
def ngxHttpLimitReqExpire (rate now : ℕ) (sh : Shctx) (n : ℕ) : Option Shctx := expireLoop rate now (3 - n) sh

inductive Rc where
  | ok
  | again
  | busy
  | error
  | declined
  deriving DecidableEq, Repr

/-- What a lookup leaves, returns, stores in `*ep`, and stores in `ctx->node` if it does. -/
structure Looked where
  sh : Shctx
  rc : Rc
  excess : ℕ
  node : Option ℕ

/-- The end of the lookup, with a new node. -/
def Shctx.create (sh : Shctx) (hash : ℕ) (key : List UInt8) (node now : ℕ) (account : Bool) : Option Looked := do
  let sh := sh.setNode node (if account then ⟨key, now, 0, 0⟩ else ⟨key, 0, 0, 1⟩)
  let tree ← ngxRbtreeInsert (ngxHttpLimitReqRbtreeInsertValue sh) sh.fuel (sh.rbtree.setKey node hash) node
  some ⟨{ sh with rbtree := tree, queue := node :: sh.queue }, if account then .ok else .again, 0,
    if account then none else some node⟩

/-- `ngx_http_limit_req_lookup`, with what the allocator gives at its first call and at its second one. -/
def ngxHttpLimitReqLookup (rate burst : ℕ) (sh : Shctx) (hash : ℕ) (key : List UInt8) (now : ℕ) (account : Bool)
    (slab slab' : Slab) : Option Looked := do
  let found ← search sh.rbtree sh.data key hash sh.fuel sh.rbtree.root
  match found with
  | some lr =>
    let sh := sh.bump lr
    let excess := nextExcess rate now (sh.node lr)
    if excess > burst then some ⟨sh, .busy, excess, none⟩
    else if account then some ⟨sh.setNode lr (charge rate now (sh.node lr)), .ok, excess, none⟩
    else some ⟨sh.setNode lr { sh.node lr with count := (sh.node lr).count + 1 }, .again, excess, some lr⟩
  | none => do
    let sh ← ngxHttpLimitReqExpire rate now sh 1
    match slab.alloc sh.queue with
    | some node => sh.create hash key node now account
    | none => do
      let sh ← ngxHttpLimitReqExpire rate now sh 0
      match slab'.alloc sh.queue with
      | some node => sh.create hash key node now account
      | none => some ⟨sh, .error, 0, none⟩

/-! ### A zone -/

/-- The tree is in order, and its nodes are those of the queue. -/
structure Shctx.Inv (sh : Shctx) (T : BTree ℕ) : Prop where
  ordered : Ordered sh.rbtree sh.data T
  nodes : T.toList.Perm sh.queue
  sentinel : sh.rbtree.sentinel = limitReqSentinel

/-- A zone at its start. -/
def shctxStart (memory : Shctx) : Shctx :=
  { rbtree := ngxRbtreeInit memory.rbtree limitReqSentinel, node := memory.node, queue := [] }

theorem shctxStart_inv (memory : Shctx) : (shctxStart memory).Inv .leaf where
  ordered := ⟨valid_init memory.rbtree limitReqSentinel, List.Pairwise.nil, fun _ hn => absurd hn List.not_mem_nil⟩
  nodes := List.Perm.refl _
  sentinel := rfl

namespace Shctx.Inv

variable {sh : Shctx} {T : BTree ℕ}

theorem length (h : sh.Inv T) : T.toList.length = sh.queue.length := h.nodes.length_eq

theorem nodup (h : sh.Inv T) : sh.queue.Nodup := h.nodes.nodup_iff.mp h.ordered.valid.nodup

theorem unique (h : sh.Inv T) {m n : ℕ} (hm : m ∈ sh.queue) (hn : n ∈ sh.queue) (hdata : sh.data m = sh.data n) : m = n :=
  h.ordered.unique (h.nodes.mem_iff.mpr hm) (h.nodes.mem_iff.mpr hn) hdata

/-- The search gives the node of the key, or there is none. -/
theorem search_cases (h : sh.Inv T) (key : List UInt8) :
    (search sh.rbtree sh.data key (ngxCrc32Short key).toNat sh.fuel sh.rbtree.root = some none ∧
        ∀ n ∈ sh.queue, sh.data n ≠ key) ∨
      ∃ n ∈ sh.queue, sh.data n = key ∧
        search sh.rbtree sh.data key (ngxCrc32Short key).toNat sh.fuel sh.rbtree.root = some (some n) := by
  have hfuel : T.toList.length < sh.fuel := by
    rw [h.length, fuel]
    omega
  by_cases hex : ∃ n ∈ sh.queue, sh.data n = key
  · obtain ⟨n, hn, rfl⟩ := hex
    exact Or.inr ⟨n, hn, rfl, h.ordered.search_found (h.nodes.mem_iff.mpr hn) hfuel⟩
  · have hno : ∀ n ∈ sh.queue, sh.data n ≠ key := fun n hn hdata => hex ⟨n, hn, hdata⟩
    exact Or.inl ⟨h.ordered.search_none (fun n hn => hno n (h.nodes.mem_iff.mp hn)) hfuel, hno⟩

/-- A node changes and keeps its key. -/
theorem setNode (h : sh.Inv T) {node : ℕ} {lr : LimitReqNode} (hdata : lr.data = sh.data node) : (sh.setNode node lr).Inv T where
  ordered := h.ordered.congr fun n _ => by
    show (Function.update sh.node node lr n).data = _
    by_cases hn : n = node
    · subst hn
      rw [Function.update_self, hdata]
    · rw [Function.update_of_ne hn]
      rfl
  nodes := h.nodes
  sentinel := h.sentinel

theorem bump (h : sh.Inv T) {node : ℕ} (hnode : node ∈ sh.queue) : (sh.bump node).Inv T where
  ordered := h.ordered
  nodes := h.nodes.trans (List.perm_cons_erase hnode)
  sentinel := h.sentinel

end Shctx.Inv

/-! ### What expires -/

/-- What a call of the loop does: the nodes at the end of the queue go, none of them with references, and each of them idle
unless it is the last one and is deleted by force. -/
theorem expireLoop_spec {rate now : ℕ} (left : ℕ) {sh : Shctx} {T : BTree ℕ} (h : sh.Inv T) :
    ∃ sh' T' removed, expireLoop rate now left sh = some sh' ∧ sh'.Inv T' ∧ sh'.node = sh.node ∧
      sh.queue = sh'.queue ++ removed ∧ (∀ n ∈ removed, (sh.node n).count = 0) ∧
      (left ≤ 3 → ∀ n ∈ removed, Idle rate now (sh.node n) ∨ left = 3 ∧ sh.queue.dropLast ++ [n] = sh.queue) := by
  induction left generalizing sh T with
  | zero => exact ⟨sh, T, [], rfl, h, rfl, (List.append_nil _).symm, by simp, by simp⟩
  | succ left ih =>
      have hstay : ∃ sh' T' removed, some sh = some sh' ∧ sh'.Inv T' ∧ sh'.node = sh.node ∧
          sh.queue = sh'.queue ++ removed ∧ (∀ n ∈ removed, (sh.node n).count = 0) ∧
          (left + 1 ≤ 3 → ∀ n ∈ removed, Idle rate now (sh.node n) ∨ left + 1 = 3 ∧ sh.queue.dropLast ++ [n] = sh.queue) :=
        ⟨sh, T, [], rfl, h, rfl, (List.append_nil _).symm, by simp, by simp⟩
      rw [expireLoop]
      cases hlast : sh.queue.getLast? with
      | none => exact hstay
      | some lr =>
          dsimp only
          by_cases hcount : (sh.node lr).count ≠ 0
          · rw [if_pos hcount]
            exact hstay
          · rw [if_neg hcount]
            by_cases hidle : left ≠ 2 ∧ ¬Idle rate now (sh.node lr)
            · rw [if_pos hidle]
              exact hstay
            · rw [if_neg hidle]
              have hsplit : sh.queue = sh.queue.dropLast ++ [lr] := List.dropLast_append_getLast? lr hlast |>.symm
              have hmem : lr ∈ sh.queue := List.mem_of_getLast? hlast
              have hfuel : T.toList.length + 1 < sh.fuel := by
                rw [h.length, Shctx.fuel]
                omega
              obtain ⟨t', T', hdel, hordered, helems, hsent⟩ := h.ordered.delete (h.nodes.mem_iff.mpr hmem) hfuel
              have hperm : T'.toList.Perm sh.queue.dropLast := by
                rw [helems]
                refine (h.nodes.erase lr).trans ?_
                have hnodup := h.nodup
                rw [hsplit, List.nodup_append] at hnodup
                have hnot : lr ∉ sh.queue.dropLast := fun hin => hnodup.2.2 lr hin lr (List.mem_singleton_self lr) rfl
                have herase : sh.queue.erase lr = sh.queue.dropLast := by
                  conv_lhs => rw [hsplit]
                  rw [List.erase_append_right _ hnot, List.erase_cons_head, List.append_nil]
                rw [herase]
              have hinv : Shctx.Inv { sh with rbtree := t', queue := sh.queue.dropLast } T' :=
                ⟨hordered, hperm, hsent.trans h.sentinel⟩
              obtain ⟨sh', T'', removed, hloop, hinv', hnode, hqueue, hzero, hidles⟩ := ih hinv
              refine ⟨sh', T'', removed ++ [lr], ?_, hinv', hnode, ?_, ?_, ?_⟩
              · rw [hdel]
                exact hloop
              · rw [← List.append_assoc, ← hqueue]
                exact hsplit
              · intro n hn
                rcases List.mem_append.mp hn with hn | hn
                · exact hzero n hn
                · rw [List.mem_singleton.mp hn]
                  exact not_not.mp hcount
              · intro hleft n hn
                rcases List.mem_append.mp hn with hn | hn
                · rcases hidles (by omega) n hn with hidle | ⟨hthree, -⟩
                  · exact Or.inl hidle
                  · omega
                · rw [List.mem_singleton.mp hn]
                  by_cases hforce : left = 2
                  · exact Or.inr ⟨by omega, hsplit.symm⟩
                  · exact Or.inl (not_not.mp fun hnot => hidle ⟨hforce, hnot⟩)

/-! ### What a lookup does -/

/-- The nodes of a zone behind some of which were deleted, none of them with references. -/
structure Expired (sh sh' : Shctx) (removed : List ℕ) : Prop where
  node : sh'.node = sh.node
  queue : sh.queue = sh'.queue ++ removed
  count : ∀ n ∈ removed, (sh.node n).count = 0

/-- The node that is deleted by force: the one used least recently but for the idle ones, where the allocator has no memory
with the nodes that are left. -/
def Forced (rate now : ℕ) (slab : Slab) (sh : Shctx) (lr : ℕ) : Prop :=
  ∃ kept removed, sh.queue = kept ++ lr :: removed ∧ (∀ n ∈ removed, Idle rate now (sh.node n)) ∧
    slab.alloc (kept ++ [lr]) = none

/-- The node that a lookup makes for the key. -/
def newNode (key : List UInt8) (now : ℕ) (account : Bool) : LimitReqNode :=
  if account then ⟨key, now, 0, 0⟩ else ⟨key, 0, 0, 1⟩

/-- The ways a lookup can go: the node of the key is found, or the key has none and there is a new one, or there is no memory
for it. The nodes that are deleted for a new one are idle, but for the one that goes by force. -/
inductive LookedUp (rate burst : ℕ) (sh : Shctx) (key : List UInt8) (now : ℕ) (account : Bool) (slab : Slab) : Looked → Prop
  | busy {lr : ℕ} (hmem : lr ∈ sh.queue) (hdata : sh.data lr = key) (hover : burst < nextExcess rate now (sh.node lr)) :
      LookedUp rate burst sh key now account slab ⟨sh.bump lr, .busy, nextExcess rate now (sh.node lr), none⟩
  | charged {lr : ℕ} (hmem : lr ∈ sh.queue) (hdata : sh.data lr = key) (hle : nextExcess rate now (sh.node lr) ≤ burst)
      (haccount : account = true) :
      LookedUp rate burst sh key now account slab
        ⟨(sh.bump lr).setNode lr (charge rate now (sh.node lr)), .ok, nextExcess rate now (sh.node lr), none⟩
  | held {lr : ℕ} (hmem : lr ∈ sh.queue) (hdata : sh.data lr = key) (hle : nextExcess rate now (sh.node lr) ≤ burst)
      (haccount : account = false) :
      LookedUp rate burst sh key now account slab
        ⟨(sh.bump lr).setNode lr { sh.node lr with count := (sh.node lr).count + 1 }, .again,
          nextExcess rate now (sh.node lr), some lr⟩
  | created {kept : Shctx} {removed : List ℕ} {tree : RbTree} {node : ℕ} (hno : ∀ n ∈ sh.queue, sh.data n ≠ key)
      (hexpired : Expired sh kept removed)
      (hgone : ∀ n ∈ removed, Idle rate now (sh.node n) ∨ Forced rate now slab sh n)
      (hnode : node ∉ kept.queue) :
      LookedUp rate burst sh key now account slab
        ⟨{ kept.setNode node (newNode key now account) with rbtree := tree, queue := node :: kept.queue },
          if account then .ok else .again, 0, if account then none else some node⟩
  | failed {kept : Shctx} {removed : List ℕ} (hno : ∀ n ∈ sh.queue, sh.data n ≠ key) (hexpired : Expired sh kept removed)
      (hgone : ∀ n ∈ removed, Idle rate now (sh.node n) ∨ Forced rate now slab sh n)
      (hslab : ∃ used, slab.alloc used = none) :
      LookedUp rate burst sh key now account slab ⟨kept, .error, 0, none⟩

theorem Shctx.Inv.create {sh : Shctx} {T : BTree ℕ} (h : sh.Inv T) {key : List UInt8}
    (hno : ∀ n ∈ sh.queue, sh.data n ≠ key) {node : ℕ} (hnode : node ∉ sh.queue ∧ node ≠ limitReqSentinel) (now : ℕ)
    (account : Bool) :
    ∃ tree T', sh.create (ngxCrc32Short key).toNat key node now account =
        some ⟨{ sh.setNode node (newNode key now account) with rbtree := tree, queue := node :: sh.queue },
          if account then .ok else .again, 0, if account then none else some node⟩ ∧
      Shctx.Inv { sh.setNode node (newNode key now account) with rbtree := tree, queue := node :: sh.queue } T' := by
  have hdata : (sh.setNode node (newNode key now account)).data = Function.update sh.data node key := by
    funext n
    by_cases hn : n = node
    · subst hn
      rw [Function.update_self]
      show (Function.update sh.node n _ n).data = key
      rw [Function.update_self, newNode]
      split
      · rfl
      · rfl
    · rw [Function.update_of_ne hn]
      show (Function.update sh.node node _ n).data = _
      rw [Function.update_of_ne hn]
      rfl
  have hfuel : T.toList.length < sh.fuel := by
    rw [h.length, Shctx.fuel]
    omega
  obtain ⟨tree, T', hins, hordered, hperm, hsent⟩ := h.ordered.insert (fun n hn => hno n (h.nodes.mem_iff.mp hn))
    (by rw [h.sentinel]; exact hnode.2) (fun hmem => hnode.1 (h.nodes.mem_iff.mp hmem)) hfuel
  refine ⟨tree, T', ?_, ?_, hperm.trans (h.nodes.cons node), hsent.trans h.sentinel⟩
  · have hins' : ngxRbtreeInsert (ngxHttpLimitReqRbtreeInsertValue (sh.setNode node (newNode key now account)))
        (sh.setNode node (newNode key now account)).fuel
        ((sh.setNode node (newNode key now account)).rbtree.setKey node (ngxCrc32Short key).toNat) node = some tree := by
      rw [ngxHttpLimitReqRbtreeInsertValue, hdata]
      exact hins
    show Option.bind (ngxRbtreeInsert _ _ _ node) _ = _
    exact (congrArg (fun o => Option.bind o _) hins').trans rfl
  · rw [← hdata] at hordered
    exact hordered

theorem lookup_spec {sh : Shctx} {T : BTree ℕ} (h : sh.Inv T) (rate burst : ℕ) (key : List UInt8) (now : ℕ)
    (account : Bool) (slab slab' : Slab) :
    ∃ looked T', ngxHttpLimitReqLookup rate burst sh (ngxCrc32Short key).toNat key now account slab slab' = some looked ∧
      looked.sh.Inv T' ∧ LookedUp rate burst sh key now account slab looked := by
  rw [ngxHttpLimitReqLookup]
  rcases h.search_cases key with ⟨hsearch, hno⟩ | ⟨lr, hmem, hdata, hsearch⟩
  · rw [hsearch, Option.bind_eq_bind, Option.bind_some]
    obtain ⟨sh₁, T₁, removed₁, hexpire₁, hinv₁, hnode₁, hqueue₁, hzero₁, hidle₁⟩ := @expireLoop_spec rate now 2 sh T h
    have hno₁ : ∀ n ∈ sh₁.queue, sh₁.data n ≠ key := fun n hn => by
      rw [Shctx.data, hnode₁]
      exact hno n (hqueue₁ ▸ List.mem_append_left _ hn)
    have hidles₁ : ∀ n ∈ removed₁, Idle rate now (sh.node n) := fun n hn => by
      rcases hidle₁ (by omega) n hn with hidle | ⟨hthree, -⟩
      · exact hidle
      · omega
    have hcall₁ : ngxHttpLimitReqExpire rate now sh 1 = some sh₁ := hexpire₁
    dsimp only
    rw [hcall₁, Option.bind_eq_bind, Option.bind_some]
    cases halloc : slab.alloc sh₁.queue with
    | some node =>
        have hfresh := slab.fresh _ _ halloc
        obtain ⟨tree, T', hcreate, hinv⟩ := hinv₁.create hno₁ hfresh now account
        exact ⟨_, T', hcreate, hinv, LookedUp.created hno ⟨hnode₁, hqueue₁, hzero₁⟩ (fun n hn => Or.inl (hidles₁ n hn))
          hfresh.1⟩
    | none =>
        obtain ⟨sh₂, T₂, removed₂, hexpire₂, hinv₂, hnode₂, hqueue₂, hzero₂, hidle₂⟩ :=
          @expireLoop_spec rate now 3 sh₁ T₁ hinv₁
        have hexpired : Expired sh sh₂ (removed₂ ++ removed₁) := by
          refine ⟨hnode₂.trans hnode₁, by rw [hqueue₁, hqueue₂, List.append_assoc], fun n hn => ?_⟩
          rcases List.mem_append.mp hn with hn | hn
          · rw [← hnode₁]
            exact hzero₂ n hn
          · exact hzero₁ n hn
        have hgone : ∀ n ∈ removed₂ ++ removed₁, Idle rate now (sh.node n) ∨ Forced rate now slab sh n := by
          intro n hn
          rcases List.mem_append.mp hn with hn | hn
          · rcases hidle₂ (le_refl 3) n hn with hidle | ⟨-, hsplit⟩
            · rw [hnode₁] at hidle
              exact Or.inl hidle
            · refine Or.inr ⟨sh₁.queue.dropLast, removed₁, ?_, hidles₁, by rw [hsplit]; exact halloc⟩
              rw [hqueue₁, ← List.singleton_append, ← List.append_assoc, hsplit]
          · exact Or.inl (hidles₁ n hn)
        have hno₂ : ∀ n ∈ sh₂.queue, sh₂.data n ≠ key := fun n hn => by
          rw [Shctx.data, hnode₂]
          exact hno₁ n (hqueue₂ ▸ List.mem_append_left _ hn)
        have hcall₂ : ngxHttpLimitReqExpire rate now sh₁ 0 = some sh₂ := hexpire₂
        dsimp only
        rw [hcall₂, Option.bind_some]
        cases halloc' : slab'.alloc sh₂.queue with
        | some node =>
            have hfresh := slab'.fresh _ _ halloc'
            obtain ⟨tree, T', hcreate, hinv⟩ := hinv₂.create hno₂ hfresh now account
            exact ⟨_, T', hcreate, hinv, LookedUp.created hno hexpired hgone hfresh.1⟩
        | none => exact ⟨_, T₂, rfl, hinv₂, LookedUp.failed hno hexpired hgone ⟨_, halloc⟩⟩
  · rw [hsearch, Option.bind_eq_bind, Option.bind_some]
    dsimp only
    have hnode : (sh.bump lr).node lr = sh.node lr := rfl
    have hbump := h.bump hmem
    rw [hnode]
    by_cases hover : nextExcess rate now (sh.node lr) > burst
    · rw [if_pos hover]
      exact ⟨_, T, rfl, hbump, LookedUp.busy hmem hdata hover⟩
    · rw [if_neg hover]
      cases haccount : account with
      | true => exact ⟨_, T, rfl, hbump.setNode rfl, LookedUp.charged hmem hdata (not_lt.mp hover) rfl⟩
      | false => exact ⟨_, T, rfl, hbump.setNode rfl, LookedUp.held hmem hdata (not_lt.mp hover) rfl⟩

end NginxDtls.LimitReq
