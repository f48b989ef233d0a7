import NginxDtls.Zipper

/-! The red-black trees of `ngx_rbtree.c`. Nodes are numbers, and each field of `ngx_rbtree_node_t` is a map
over them, so that a write to a field touches one entry of one map. The branches of the source that
mirror each other are one definition over a side. Loops run on fuel and give `none` when it ends; the
correctness theorems show how much is enough. -/

namespace NginxDtls

open Zipper (Side)

/-- `NULL`. No node has this number. -/
def ngxNull : Nat := 0

structure RbTree where
  key : Nat → Nat
  child : Side → Nat → Nat
  parent : Nat → Nat
  /-- `color`: `true` is red -/
  red : Nat → Bool
  root : Nat
  sentinel : Nat

namespace RbTree

def setKey (t : RbTree) (node key : Nat) : RbTree := { t with key := Function.update t.key node key }

def setChild (t : RbTree) (d : Side) (node v : Nat) : RbTree :=
  { t with child := Function.update t.child d (Function.update (t.child d) node v) }

def setParent (t : RbTree) (node v : Nat) : RbTree := { t with parent := Function.update t.parent node v }

def setRed (t : RbTree) (node : Nat) (red : Bool) : RbTree := { t with red := Function.update t.red node red }

def setRoot (t : RbTree) (node : Nat) : RbTree := { t with root := node }

/-- Which of its parent's links leads to `node`, when the link on side `d` is looked at first. -/
def sideOf (t : RbTree) (d : Side) (node : Nat) : Side :=
  if node = t.child d (t.parent node) then d else d.flip

/-- `ngx_rbtree_left_rotate` for the left side and `ngx_rbtree_right_rotate` for the right one. -/
def rotate (d : Side) (t : RbTree) (node : Nat) : RbTree :=
  let temp := t.child d.flip node
  let t := t.setChild d.flip node (t.child d temp)
  let t := if t.child d temp ≠ t.sentinel then t.setParent (t.child d temp) node else t
  let t := t.setParent temp (t.parent node)
  let t :=
    if node = t.root then t.setRoot temp else t.setChild (t.sideOf d node) (t.parent node) temp
  let t := t.setChild d temp node
  t.setParent node temp

end RbTree

open RbTree

/-- `ngx_rbtree_init` over whatever the memory held. -/
def ngxRbtreeInit (t : RbTree) (sentinel : Nat) : RbTree :=
  { t.setRed sentinel false with root := sentinel, sentinel := sentinel }

/-! ### Insertion -/

/-- The loop that all insert functions share: `before node temp` tells whether `node` goes to the left of
`temp`. -/
def rbtreeInsertBelow (before : Nat → Nat → Bool) : Nat → RbTree → Nat → Nat → Option RbTree
  | 0, _, _, _ => none
  | fuel + 1, t, temp, node =>
    let d := if before node temp then Side.left else Side.right
    if t.child d temp = t.sentinel then
      let t := t.setChild d temp node
      let t := t.setParent node temp
      let t := t.setChild .left node t.sentinel
      let t := t.setChild .right node t.sentinel
      some (t.setRed node true)
    else rbtreeInsertBelow before fuel t (t.child d temp) node

/-- `ngx_rbtree_insert_value`. -/
def ngxRbtreeInsertValue (fuel : Nat) (t : RbTree) (temp node : Nat) : Option RbTree :=
  rbtreeInsertBelow (fun node temp => t.key node < t.key temp) fuel t temp node

/-- One round of the re-balancing loop, where the parent is on side `d` of the grandparent. -/
def rbtreeInsertRound (d : Side) (t : RbTree) (node : Nat) : RbTree × Nat :=
  let temp := t.child d.flip (t.parent (t.parent node))
  if t.red temp then
    let t := t.setRed (t.parent node) false
    let t := t.setRed temp false
    let t := t.setRed (t.parent (t.parent node)) true
    (t, t.parent (t.parent node))
  else
    let r :=
      if node = t.child d.flip (t.parent node) then (t.rotate d (t.parent node), t.parent node)
      else (t, node)
    let t := r.1
    let node := r.2
    let t := t.setRed (t.parent node) false
    let t := t.setRed (t.parent (t.parent node)) true
    (t.rotate d.flip (t.parent (t.parent node)), node)

def rbtreeInsertFixup : Nat → RbTree → Nat → Option RbTree
  | 0, _, _ => none
  | fuel + 1, t, node =>
    if node ≠ t.root ∧ t.red (t.parent node) then
      let r := rbtreeInsertRound (t.sideOf .left (t.parent node)) t node
      rbtreeInsertFixup fuel r.1 r.2
    else some t

/-- `ngx_rbtree_insert`; `insert` is the insert function of the tree. -/
def ngxRbtreeInsert (insert : Nat → RbTree → Nat → Nat → Option RbTree) (fuel : Nat) (t : RbTree)
    (node : Nat) : Option RbTree :=
  if t.root = t.sentinel then
    let t := t.setParent node ngxNull
    let t := t.setChild .left node t.sentinel
    let t := t.setChild .right node t.sentinel
    let t := t.setRed node false
    some (t.setRoot node)
  else do
    let t ← insert fuel t t.root node
    let t ← rbtreeInsertFixup fuel t node
    some (t.setRed t.root false)

/-! ### Deletion -/

def ngxRbtreeMin : Nat → RbTree → Nat → Option Nat
  | 0, _, _ => none
  | fuel + 1, t, node =>
    if t.child .left node ≠ t.sentinel then ngxRbtreeMin fuel t (t.child .left node) else some node

/-- A round of the delete fixup from where the sibling `w` is black on; `temp` is on side `d` of its
parent. -/
def rbtreeDeleteBlack (d : Side) (t : RbTree) (temp w : Nat) : RbTree × Nat :=
  if !t.red (t.child .left w) && !t.red (t.child .right w) then (t.setRed w true, t.parent temp)
  else
    let r :=
      if !t.red (t.child d.flip w) then
        let t := t.setRed (t.child d w) false
        let t := t.setRed w true
        let t := t.rotate d.flip w
        (t, t.child d.flip (t.parent temp))
      else (t, w)
    let t := r.1
    let w := r.2
    let t := t.setRed w (t.red (t.parent temp))
    let t := t.setRed (t.parent temp) false
    let t := t.setRed (t.child d.flip w) false
    let t := t.rotate d (t.parent temp)
    (t, t.root)

/-- One round of the delete fixup; a red sibling is rotated up first. -/
def rbtreeDeleteRound (d : Side) (t : RbTree) (temp : Nat) : RbTree × Nat :=
  let w := t.child d.flip (t.parent temp)
  if t.red w then
    let t := t.setRed w false
    let t := t.setRed (t.parent temp) true
    let t := t.rotate d (t.parent temp)
    rbtreeDeleteBlack d t temp (t.child d.flip (t.parent temp))
  else rbtreeDeleteBlack d t temp w

def rbtreeDeleteFixup : Nat → RbTree → Nat → Option RbTree
  | 0, _, _ => none
  | fuel + 1, t, temp =>
    if temp ≠ t.root ∧ !t.red temp then
      let r := rbtreeDeleteRound (t.sideOf .left temp) t temp
      rbtreeDeleteFixup fuel r.1 r.2
    else some (t.setRed temp false)

/-- `subst` takes the place of `node`. -/
def rbtreeTakePlace (t : RbTree) (node subst : Nat) : RbTree :=
  let t := t.setChild .left subst (t.child .left node)
  let t := t.setChild .right subst (t.child .right node)
  let t := t.setParent subst (t.parent node)
  let t := t.setRed subst (t.red node)
  let t :=
    if node = t.root then t.setRoot subst else t.setChild (t.sideOf .left node) (t.parent node) subst
  let t :=
    if t.child .left subst ≠ t.sentinel then t.setParent (t.child .left subst) subst else t
  if t.child .right subst ≠ t.sentinel then t.setParent (t.child .right subst) subst else t

/-- `temp` takes the place of `subst`, and `subst` that of `node`. -/
def rbtreeReplace (t : RbTree) (node subst temp : Nat) : RbTree :=
  let t :=
    if t.parent subst = node then t.setParent temp subst else t.setParent temp (t.parent subst)
  rbtreeTakePlace t node subst

/-- The lines marked as debug stuff. -/
def rbtreeClear (t : RbTree) (node : Nat) : RbTree :=
  let t := t.setChild .left node ngxNull
  let t := t.setChild .right node ngxNull
  let t := t.setParent node ngxNull
  t.setKey node 0

/-- The two nodes that a deletion works on: `subst` leaves its place, and `temp` moves up to it. -/
def rbtreeSubst (fuel : Nat) (t : RbTree) (node : Nat) : Option (Nat × Nat) :=
  if t.child .left node = t.sentinel then some (node, t.child .right node)
  else if t.child .right node = t.sentinel then some (node, t.child .left node)
  else do
    let subst ← ngxRbtreeMin fuel t (t.child .right node)
    some (subst, t.child .right subst)

def ngxRbtreeDelete (fuel : Nat) (t : RbTree) (node : Nat) : Option RbTree := do
  let (subst, temp) ← rbtreeSubst fuel t node
  if subst = t.root then
    let t := t.setRoot temp
    let t := t.setRed temp false
    some (rbtreeClear t node)
  else
    let red := t.red subst
    let t := t.setChild (t.sideOf .left subst) (t.parent subst) temp
    let t := if subst = node then t.setParent temp (t.parent subst) else rbtreeReplace t node subst temp
    let t := rbtreeClear t node
    if red then some t else rbtreeDeleteFixup fuel t temp

end NginxDtls
