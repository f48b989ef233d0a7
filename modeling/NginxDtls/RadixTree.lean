import Mathlib.Tactic
import Mathlib.Data.List.Basic

/-! The radix tree of `ngx_radix_tree.c`. Its nodes are taken from pages of the pool or from a list of freed nodes that
runs through their `right` pointers. The functions for 32-bit and for 128-bit keys differ only in how they walk the bits
of a key. -/

namespace NginxDtls.Radix

/-- `NGX_RADIX_NO_VALUE` -/
def radixNoValue : UInt64 := 0xFFFFFFFFFFFFFFFF

structure RadixNode where
  right : Option ℕ
  left : Option ℕ
  parent : Option ℕ
  value : UInt64

/-- The tree and the memory of its nodes. `start` is the next node of the current page, and `size` counts the bytes
that the page has left. -/
structure RadixTree where
  node : ℕ → RadixNode
  root : ℕ
  free : Option ℕ
  start : ℕ
  size : ℕ

/-- `sizeof(ngx_radix_node_t)` -/
def radixNodeSize : ℕ := 32

inductive Ret where
  | ok | busy | error
deriving DecidableEq

namespace RadixTree

/-- The pointer of a node that a key bit selects. -/
def child (t : RadixTree) (n : ℕ) (side : Bool) : Option ℕ := if side then (t.node n).right else (t.node n).left

def put (t : RadixTree) (n : ℕ) (x : RadixNode) : RadixTree := { t with node := Function.update t.node n x }

def setChild (t : RadixTree) (n : ℕ) (side : Bool) (c : Option ℕ) : RadixTree :=
  if side then t.put n { t.node n with right := c } else t.put n { t.node n with left := c }

def setValue (t : RadixTree) (n : ℕ) (value : UInt64) : RadixTree := t.put n { t.node n with value }

/-- `ngx_radix_alloc`; `pages` counts the pages that the pool can still give. -/
def alloc (pagesize : ℕ) (t : RadixTree) (pages : ℕ) : Option (ℕ × RadixTree × ℕ) :=
  match t.free with
  | some p => some (p, { t with free := (t.node p).right }, pages)
  | none =>
    if t.size < radixNodeSize then
      match pages with
      | 0 => none
      | pages + 1 => some (t.start, { t with start := t.start + 1, size := pagesize - radixNodeSize }, pages)
    else some (t.start, { t with start := t.start + 1, size := t.size - radixNodeSize }, pages)

/-! ### The functions on the sides that a key takes -/

/-- The first loop of the insertion: where it ends, and the sides that are left when a pointer is `NULL`. -/
def descend (t : RadixTree) : ℕ → List Bool → ℕ × List Bool
  | node, [] => (node, [])
  | node, side :: sides =>
    match t.child node side with
    | none => (node, side :: sides)
    | some next => descend t next sides

/-- The second loop of the insertion, and the value. -/
def extend (pagesize : ℕ) (value : UInt64) : RadixTree → ℕ → ℕ → List Bool → Ret × RadixTree
  | t, _, node, [] => (.ok, t.setValue node value)
  | t, pages, node, side :: sides =>
    match alloc pagesize t pages with
    | none => (.error, t)
    | some (next, t, pages) =>
      extend pagesize value ((t.put next ⟨none, none, some node, radixNoValue⟩).setChild node side next) pages next sides

def insert (pagesize : ℕ) (t : RadixTree) (sides : List Bool) (value : UInt64) (pages : ℕ) : Ret × RadixTree :=
  match t.descend t.root sides with
  | (node, []) => if (t.node node).value ≠ radixNoValue then (.busy, t) else (.ok, t.setValue node value)
  | (node, side :: sides) => extend pagesize value t pages node (side :: sides)

/-- The walk of the deletion. -/
def walk (t : RadixTree) : Option ℕ → List Bool → Option ℕ
  | node, [] => node
  | none, _ => none
  | some node, side :: sides => walk t (t.child node side) sides

/-- Unlinking a node from its parent, and pushing it on the list of freed nodes. -/
def unlink (t : RadixTree) (parent node : ℕ) : RadixTree :=
  let t := t.setChild parent (decide ((t.node parent).right = some node)) none
  { t.put node { t.node node with right := t.free } with free := some node }

/-- The loop that unlinks a node and then every node above that has become an empty leaf. `none` is a parent that is
read through `NULL`, or a climb that has not ended. -/
def prune : ℕ → RadixTree → ℕ → Option RadixTree
  | 0, _, _ => none
  | fuel + 1, t, node =>
    match (t.node node).parent with
    | none => none
    | some parent =>
      let t := t.unlink parent node
      if (t.node parent).right.isSome ∨ (t.node parent).left.isSome ∨ (t.node parent).value ≠ radixNoValue ∨
          (t.node parent).parent = none then some t
      else prune fuel t parent

def delete (t : RadixTree) (sides : List Bool) : Option (Ret × RadixTree) :=
  match t.walk (some t.root) sides with
  | none => some (.error, t)
  | some node =>
    if (t.node node).right.isSome ∨ (t.node node).left.isSome then
      if (t.node node).value ≠ radixNoValue then some (.ok, t.setValue node radixNoValue) else some (.error, t)
    else (prune sides.length t node).map (.ok, ·)

/-- The loop of the search; `side` is the side at every depth. `none` is a walk that has not ended. -/
def findLoop (t : RadixTree) (side : ℕ → Bool) : ℕ → ℕ → Option ℕ → UInt64 → Option UInt64
  | _, _, none, value => some value
  | 0, _, some _, _ => none
  | fuel + 1, depth, some node, value =>
    findLoop t side fuel (depth + 1) (t.child node (side depth))
      (if (t.node node).value ≠ radixNoValue then (t.node node).value else value)

end RadixTree

/-! ### The bits of a key -/

/-- How a family of functions walks the bits of a key: the number of rounds until its loop over a mask ends by itself,
and the bit of a key, or of a mask, that a round tests. -/
structure KeyLoop (K : Type) where
  width : ℕ
  side : K → ℕ → Bool

/-- `bit` in a round of the 32-bit loops. -/
def bit32 : ℕ → UInt32
  | 0 => 0x80000000
  | n + 1 => bit32 n >>> 1

/-- The 32-bit functions; in round 32 `bit` is 0. -/
def loop32 : KeyLoop UInt32 := ⟨32, fun key n => key &&& bit32 n ≠ 0⟩

/-- `i` and `bit` in a round of the 128-bit loops. -/
def bit128 : ℕ → ℕ × UInt8
  | 0 => (0, 0x80)
  | n + 1 => if (bit128 n).2 >>> 1 = 0 then ((bit128 n).1 + 1, 0x80) else ((bit128 n).1, (bit128 n).2 >>> 1)

/-- The 128-bit functions, which leave a loop over a mask when `i` is 16. The search does not, and reads the byte behind
the key below a node of the last level. -/
def loop128 : KeyLoop (ℕ → UInt8) := ⟨128, fun key n => key (bit128 n).1 &&& (bit128 n).2 ≠ 0⟩

namespace KeyLoop

variable {K : Type} (l : KeyLoop K)

/-- The sides that a loop over `key` takes while `bit & mask`, from a round on. -/
def sidesFrom (key mask : K) : ℕ → ℕ → List Bool
  | 0, _ => []
  | fuel + 1, n => if l.side mask n then l.side key n :: sidesFrom key mask fuel (n + 1) else []

def sides (key mask : K) : List Bool := l.sidesFrom key mask l.width 0

/-- `ngx_radix32tree_insert` and `ngx_radix128tree_insert` -/
def insert (pagesize : ℕ) (t : RadixTree) (key mask : K) (value : UInt64) (pages : ℕ) : Ret × RadixTree :=
  t.insert pagesize (l.sides key mask) value pages

/-- `ngx_radix32tree_delete` and `ngx_radix128tree_delete` -/
def delete (t : RadixTree) (key mask : K) : Option (Ret × RadixTree) := t.delete (l.sides key mask)

/-- `ngx_radix32tree_find` and `ngx_radix128tree_find` -/
def find (t : RadixTree) (key : K) : Option UInt64 :=
  t.findLoop (l.side key) (l.width + 1) 0 (some t.root) radixNoValue

end KeyLoop

/-! ### Creation -/

/-- The argument of the creation: -1 for a number of levels that the page size gives, or the number. -/
inductive Preallocate where
  | auto
  | bits (n : ℕ)

def Preallocate.levels (pagesize : ℕ) : Preallocate → ℕ
  | .bits n => n
  | .auto => if pagesize / radixNodeSize = 128 then 6 else if pagesize / radixNodeSize = 256 then 7 else 8

/-- The inner loop of the preallocation: a node for every key of a level. -/
def preallocateLevel (pagesize pages : ℕ) (mask inc : UInt32) : ℕ → RadixTree → UInt32 → Option RadixTree
  | 0, _, _ => none
  | fuel + 1, t, key =>
    match loop32.insert pagesize t key mask radixNoValue pages with
    | (.ok, t) => if key + inc = 0 then some t else preallocateLevel pagesize pages mask inc fuel t (key + inc)
    | _ => none

/-- The outer loop. -/
def preallocateLevels (pagesize pages : ℕ) : ℕ → UInt32 → UInt32 → RadixTree → Option RadixTree
  | 0, _, _, t => some t
  | n + 1, mask, inc, t =>
    match preallocateLevel pagesize pages (mask >>> 1 ||| 0x80000000) inc (2 ^ 32) t 0 with
    | none => none
    | some t => preallocateLevels pagesize pages n (mask >>> 1 ||| 0x80000000) (inc >>> 1) t

/-- `ngx_radix_tree_create`; every insertion may take that many pages from the pool. -/
def radixTreeCreate (pagesize pages : ℕ) (preallocate : Preallocate) : Option RadixTree :=
  match RadixTree.alloc pagesize ⟨fun _ => ⟨none, none, none, radixNoValue⟩, 0, none, 0, 0⟩ pages with
  | none => none
  | some (root, t, _) =>
    preallocateLevels pagesize pages (preallocate.levels pagesize) 0 0x80000000
      { t.put root ⟨none, none, none, radixNoValue⟩ with root }

end NginxDtls.Radix
