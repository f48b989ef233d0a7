import Mathlib.Tactic

/-! Memory pools: `ngx_palloc.c`. Pointers are natural numbers; the blocks of a pool are numbered, and `next` is the number
of a block. What the system allocator answers is given to the functions, and what it is asked is part of their result. -/

namespace NginxDtls.Palloc

def sizeofPool : ℕ := 80

def sizeofPoolData : ℕ := 32

def sizeofPoolLarge : ℕ := 16

/-- `NGX_ALIGNMENT` -/
def ngxAlignment : ℕ := 8

/-- `ngx_align_ptr` -/
def ngxAlignPtr (p a : ℕ) : ℕ := (p + (a - 1)) / a * a

/-- `ngx_pool_data_t`, and where the block is. -/
structure PoolData where
  addr : ℕ
  last : ℕ
  endp : ℕ
  next : Option ℕ
  failed : ℕ

/-- `ngx_pool_large_t`, and where it is. -/
structure PoolLarge where
  addr : ℕ
  alloc : Option ℕ

/-- `ngx_pool_t`, whose block has the number 0. The list `large` goes through `next`. -/
structure Pool where
  d : ℕ → PoolData
  count : ℕ
  max : ℕ
  current : ℕ
  large : List PoolLarge

/-- A call that was answered with a block, and a call of `ngx_free`. -/
inductive Call where
  | alloc (addr size : ℕ)
  | free (addr : ℕ)

/-- What an allocation returns, what it makes of the pool, and its calls. -/
structure Allocated where
  ptr : Option ℕ
  pool : Pool
  calls : List Call

/-- `ngx_create_pool`, with the size of a page and the block for the pool. -/
def ngxCreatePool (pagesize size p : ℕ) : Pool where
  d := fun _ => ⟨p, p + sizeofPool, p + size, none, 0⟩
  count := 1
  max := if size - sizeofPool < pagesize - 1 then size - sizeofPool else pagesize - 1
  current := 0
  large := []

/-! ### Small allocations -/

/-- `(size_t) (p->d.end - m)` -/
def spaceLeft (endp m : ℕ) : ℕ := if m ≤ endp then endp - m else 2 ^ 64 - (m - endp)

def start (d : PoolData) (align : Bool) : ℕ := if align then ngxAlignPtr d.last ngxAlignment else d.last

def Pool.setLast (pool : Pool) (p last : ℕ) : Pool :=
  { pool with d := Function.update pool.d p { pool.d p with last := last } }

/-- The loop of `ngx_palloc_small` from a block on: the block that has room. The first argument runs out after all
blocks. -/
def smallLoop (pool : Pool) (size : ℕ) (align : Bool) : ℕ → ℕ → Option ℕ
  | 0, _ => none
  | fuel + 1, p =>
    if spaceLeft (pool.d p).endp (start (pool.d p) align) ≥ size then some p
    else (pool.d p).next.bind (smallLoop pool size align fuel)

/-- A round of the loop of `ngx_palloc_block`, in front of the block `next`. -/
def countFailure (pool : Pool) (p next : ℕ) : Pool where
  d := Function.update pool.d p { pool.d p with failed := (pool.d p).failed + 1 }
  count := pool.count
  max := pool.max
  current := if (pool.d p).failed > 4 then next else pool.current
  large := pool.large

/-- The loop of `ngx_palloc_block`, which ends at the last block. -/
def failLoop : ℕ → Pool → ℕ → Pool × ℕ
  | 0, pool, p => (pool, p)
  | fuel + 1, pool, p => (pool.d p).next.elim (pool, p) fun next => failLoop fuel (countFailure pool p next) next

/-- `p->d.next = new` -/
def Pool.link (pool : Pool) (p : ℕ) (new : PoolData) : Pool where
  d := Function.update (Function.update pool.d p { pool.d p with next := some pool.count }) pool.count new
  count := pool.count + 1
  max := pool.max
  current := pool.current
  large := pool.large

/-- `psize` -/
def Pool.psize (pool : Pool) : ℕ := (pool.d 0).endp - (pool.d 0).addr

def ngxPallocBlock (pool : Pool) (size : ℕ) (block : Option ℕ) : Allocated :=
  match block with
  | none => ⟨none, pool, []⟩
  | some b =>
    let m := ngxAlignPtr (b + sizeofPoolData) ngxAlignment
    let r := failLoop pool.count pool pool.current
    ⟨some m, r.1.link r.2 ⟨b, m + size, b + pool.psize, none, 0⟩, [.alloc b pool.psize]⟩

def ngxPallocSmall (pool : Pool) (size : ℕ) (align : Bool) (block : Option ℕ) : Allocated :=
  match smallLoop pool size align pool.count pool.current with
  | none => ngxPallocBlock pool size block
  | some p => ⟨some (start (pool.d p) align), pool.setLast p (start (pool.d p) align + size), []⟩

/-! ### Large allocations -/

/-- The loop of `ngx_palloc_large` over the records, with `n`: the records with one that is used again. -/
def reuseLoop (p : ℕ) : List PoolLarge → ℕ → Option (List PoolLarge)
  | [], _ => none
  | l :: large, n =>
    if l.alloc = none then some ({ l with alloc := some p } :: large)
    else if n > 3 then none
    else (reuseLoop p large (n + 1)).map (l :: ·)

/-- What is behind the loop: a record of its own. -/
def addRecord (pool : Pool) (size p : ℕ) (block : Option ℕ) : Allocated :=
  let r := ngxPallocSmall pool sizeofPoolLarge true block
  match r.ptr with
  | none => ⟨none, r.pool, .alloc p size :: (r.calls ++ [.free p])⟩
  | some m => ⟨some p, { r.pool with large := ⟨m, some p⟩ :: r.pool.large }, .alloc p size :: r.calls⟩

def ngxPallocLarge (pool : Pool) (size : ℕ) (big block : Option ℕ) : Allocated :=
  match big with
  | none => ⟨none, pool, []⟩
  | some p =>
    match reuseLoop p pool.large 0 with
    | some large => ⟨some p, { pool with large := large }, [.alloc p size]⟩
    | none => addRecord pool size p block

def ngxPalloc (pool : Pool) (size : ℕ) (big block : Option ℕ) : Allocated :=
  if size ≤ pool.max then ngxPallocSmall pool size true block else ngxPallocLarge pool size big block

def ngxPnalloc (pool : Pool) (size : ℕ) (big block : Option ℕ) : Allocated :=
  if size ≤ pool.max then ngxPallocSmall pool size false block else ngxPallocLarge pool size big block

/-! ### Releases -/

/-- `ngx_free` of what a pointer points to. -/
def freeCalls (p : Option ℕ) : List Call := (p.map Call.free).toList

/-- The loop of `ngx_pfree`: the records, if one of them has the pointer. -/
def pfreeLoop (p : Option ℕ) : List PoolLarge → Option (List PoolLarge)
  | [] => none
  | l :: large => if p = l.alloc then some ({ l with alloc := none } :: large) else (pfreeLoop p large).map (l :: ·)

/-- `ngx_pfree`: the pool, and the calls; it returns `NGX_DECLINED` if there are none. -/
def ngxPfree (pool : Pool) (p : Option ℕ) : Pool × List Call :=
  match pfreeLoop p pool.large with
  | none => (pool, [])
  | some large => ({ pool with large := large }, freeCalls p)

def largeCalls (pool : Pool) : List Call := pool.large.flatMap fun l => freeCalls l.alloc

/-- The loop of `ngx_reset_pool` over the blocks. -/
def resetLoop : ℕ → Pool → Option ℕ → Pool
  | _, pool, none => pool
  | 0, pool, some _ => pool
  | fuel + 1, pool, some p =>
    resetLoop fuel
      { pool with d := Function.update pool.d p { pool.d p with last := (pool.d p).addr + sizeofPool, failed := 0 } }
      (pool.d p).next

def ngxResetPool (pool : Pool) : Pool × List Call :=
  ({ resetLoop pool.count pool (some 0) with current := 0, large := [] }, largeCalls pool)

/-- The loop of `ngx_destroy_pool` over the blocks. -/
def destroyLoop (pool : Pool) : ℕ → ℕ → List Call
  | 0, _ => []
  | fuel + 1, p => .free (pool.d p).addr :: (pool.d p).next.elim [] (destroyLoop pool fuel)

/-- `ngx_destroy_pool`, without the cleanup handlers. -/
def ngxDestroyPool (pool : Pool) : List Call := largeCalls pool ++ destroyLoop pool pool.count 0

end NginxDtls.Palloc
