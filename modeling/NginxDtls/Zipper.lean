import Mathlib.Tactic

/-! Coloured binary trees with a focus. A tree is a subtree plugged into a path of frames, the innermost
frame first; rewriting at the focus leaves the path alone. The in-order sequence and the red-black
discipline are stated for both halves, so that an argument about one loop round never unfolds the whole
tree. -/

namespace NginxDtls.Zipper

/-- The two sides of a node. -/
inductive Side where
  | left
  | right
  deriving DecidableEq

namespace Side

def flip : Side → Side
  | left => right
  | right => left

@[simp] theorem flip_flip (d : Side) : d.flip.flip = d := by cases d <;> rfl

theorem flip_ne (d : Side) : d.flip ≠ d := by cases d <;> decide

theorem eq_or_flip (d e : Side) : e = d ∨ e = d.flip := by cases d <;> cases e <;> simp [flip]

end Side

variable {α : Type}

inductive BTree (α : Type) where
  | leaf
  | node (red : Bool) (l : BTree α) (x : α) (r : BTree α)

/-- One step from a node down to one of its sides: the node with its other subtree. -/
structure Frame (α : Type) where
  side : Side
  red : Bool
  x : α
  sib : BTree α

namespace BTree

/-- A node by the subtree on a given side and the one on the other side. -/
def branch (d : Side) (red : Bool) (x : α) (near far : BTree α) : BTree α :=
  match d with
  | .left => node red near x far
  | .right => node red far x near

def isRed : BTree α → Bool
  | leaf => false
  | node red _ _ _ => red

/-- The root painted black. -/
def blacken : BTree α → BTree α
  | leaf => leaf
  | node _ l x r => node false l x r

/-- The in-order sequence. -/
def toList : BTree α → List α
  | leaf => []
  | node _ l x r => l.toList ++ x :: r.toList

@[simp] theorem isRed_branch (d : Side) (red : Bool) (x : α) (near far : BTree α) :
    (branch d red x near far).isRed = red := by cases d <;> rfl

@[simp] theorem blacken_branch (d : Side) (red : Bool) (x : α) (near far : BTree α) :
    (branch d red x near far).blacken = branch d false x near far := by cases d <;> rfl

@[simp] theorem toList_blacken (t : BTree α) : t.blacken.toList = t.toList := by cases t <;> rfl

theorem branch_flip (d : Side) (red : Bool) (x : α) (near far : BTree α) :
    branch d.flip red x near far = branch d red x far near := by cases d <;> rfl

theorem perm_branch (d : Side) (red : Bool) (x : α) (near far : BTree α) :
    (branch d red x near far).toList.Perm (x :: (near.toList ++ far.toList)) := by
  cases d with
  | left => exact List.perm_middle
  | right => exact List.perm_middle.trans (List.perm_append_comm.cons x)

@[simp] theorem mem_branch {d : Side} {red : Bool} {x y : α} {near far : BTree α} :
    y ∈ (branch d red x near far).toList ↔ y = x ∨ y ∈ near.toList ∨ y ∈ far.toList := by
  rw [(perm_branch d red x near far).mem_iff, List.mem_cons, List.mem_append]

/-- Every nonempty tree is a node seen from any side. -/
theorem eq_branch (d : Side) {t : BTree α} (ht : t ≠ leaf) :
    ∃ red x near far, t = branch d red x near far := by
  cases t with
  | leaf => exact absurd rfl ht
  | node red l x r =>
      cases d with
      | left => exact ⟨red, x, l, r, rfl⟩
      | right => exact ⟨red, x, r, l, rfl⟩

/-- The subtree on the far side comes up: the in-order sequence stays. -/
theorem toList_rotate (d : Side) (rx ry rx' ry' : Bool) (x y : α) (a b c : BTree α) :
    (branch d ry' y (branch d rx' x a b) c).toList = (branch d rx x a (branch d ry y b c)).toList := by
  cases d <;> simp [branch, toList]

theorem toList_recolor (d : Side) (red red' : Bool) (x : α) (near far : BTree α) :
    (branch d red x near far).toList = (branch d red' x near far).toList := by
  cases d <;> rfl

end BTree

open BTree

namespace Frame

/-- The node of a frame with a subtree in the hole. -/
def fill (f : Frame α) (t : BTree α) : BTree α := branch f.side f.red f.x t f.sib

/-- The elements of a frame. -/
def elems (f : Frame α) : List α := f.x :: f.sib.toList

end Frame

/-- The tree with `t` in the hole of a path. -/
def plug (t : BTree α) : List (Frame α) → BTree α
  | [] => t
  | f :: path => plug (f.fill t) path

/-- What stands in front of the hole. -/
def before : List (Frame α) → List α
  | [] => []
  | f :: path => before path ++ match f.side with
    | .left => []
    | .right => f.sib.toList ++ [f.x]

/-- What stands behind the hole. -/
def after : List (Frame α) → List α
  | [] => []
  | f :: path => (match f.side with
    | .left => f.x :: f.sib.toList
    | .right => []) ++ after path

theorem toList_plug (t : BTree α) (path : List (Frame α)) :
    (plug t path).toList = before path ++ (t.toList ++ after path) := by
  induction path generalizing t with
  | nil => simp [plug, before, after]
  | cons f path ih =>
      rw [plug, ih, before, after, Frame.fill]
      cases f.side <;> simp [branch, toList]

theorem toList_plug_congr {t t' : BTree α} (h : t.toList = t'.toList) (path : List (Frame α)) :
    (plug t path).toList = (plug t' path).toList := by
  rw [toList_plug, toList_plug, h]

theorem plug_append (t : BTree α) (path path' : List (Frame α)) :
    plug t (path ++ path') = plug (plug t path) path' := by
  induction path generalizing t with
  | nil => rfl
  | cons f path ih => exact ih (f.fill t)

theorem perm_plug (t : BTree α) (path : List (Frame α)) :
    (plug t path).toList.Perm (t.toList ++ path.flatMap Frame.elems) := by
  induction path generalizing t with
  | nil => simp [plug]
  | cons f path ih =>
      refine (ih (f.fill t)).trans ?_
      rw [List.flatMap_cons, ← List.append_assoc]
      apply List.Perm.append_right
      refine (perm_branch f.side f.red f.x t f.sib).trans ?_
      exact List.perm_middle.symm

/-! ### Red-black trees -/

/-- No red node has a red child, and `n` black nodes lie on every path down. -/
inductive RB : BTree α → Nat → Prop where
  | leaf : RB leaf 0
  | red {l r : BTree α} {x : α} {n : Nat} (hl : l.isRed = false) (hr : r.isRed = false) (bl : RB l n)
    (br : RB r n) : RB (node true l x r) n
  | black {l r : BTree α} {x : α} {n : Nat} (bl : RB l n) (br : RB r n) : RB (node false l x r) (n + 1)

/-- Whether the hole needs a black subtree: its parent is red, or it is the root. -/
def needsBlack : List (Frame α) → Bool
  | [] => true
  | f :: _ => f.red

/-- A red-black tree with a hole for a subtree of black height `n`. -/
inductive RBPath : List (Frame α) → Nat → Prop where
  | nil {n : Nat} : RBPath [] n
  | red {d : Side} {x : α} {sib : BTree α} {path : List (Frame α)} {n : Nat} (hs : sib.isRed = false)
    (hp : needsBlack path = false) (bs : RB sib n) (bp : RBPath path n) : RBPath (⟨d, true, x, sib⟩ :: path) n
  | black {d : Side} {x : α} {sib : BTree α} {path : List (Frame α)} {n : Nat} (bs : RB sib n)
    (bp : RBPath path (n + 1)) : RBPath (⟨d, false, x, sib⟩ :: path) n

theorem rb_branch_red {d : Side} {x : α} {near far : BTree α} {n : Nat} :
    RB (branch d true x near far) n ↔
      near.isRed = false ∧ far.isRed = false ∧ RB near n ∧ RB far n := by
  cases d with
  | left =>
      constructor
      · rintro (_ | ⟨hl, hr, bl, br⟩)
        exact ⟨hl, hr, bl, br⟩
      · rintro ⟨hl, hr, bl, br⟩
        exact .red hl hr bl br
  | right =>
      constructor
      · rintro (_ | ⟨hl, hr, bl, br⟩)
        exact ⟨hr, hl, br, bl⟩
      · rintro ⟨hl, hr, bl, br⟩
        exact .red hr hl br bl

theorem rb_branch_black {d : Side} {x : α} {near far : BTree α} {n : Nat} :
    RB (branch d false x near far) n ↔ ∃ m, n = m + 1 ∧ RB near m ∧ RB far m := by
  cases d with
  | left =>
      constructor
      · rintro (_ | _ | ⟨bl, br⟩)
        exact ⟨_, rfl, bl, br⟩
      · rintro ⟨m, rfl, bl, br⟩
        exact .black bl br
  | right =>
      constructor
      · rintro (_ | _ | ⟨bl, br⟩)
        exact ⟨_, rfl, br, bl⟩
      · rintro ⟨m, rfl, bl, br⟩
        exact .black br bl

/-- A tree of positive black height is not a leaf. -/
theorem RB.ne_leaf {t : BTree α} {n : Nat} (h : RB t (n + 1)) : t ≠ BTree.leaf := by
  rintro rfl
  cases h

/-- Painting a red root black adds one to the height. -/
theorem RB.blacken {t : BTree α} {n : Nat} (h : RB t n) :
    RB t.blacken (if t.isRed then n + 1 else n) := by
  cases h with
  | leaf => exact .leaf
  | red hl hr bl br => exact .black bl br
  | black bl br => exact .black bl br

/-- A tree is red-black with a black root exactly when its two halves fit. -/
theorem rb_plug {t : BTree α} {path : List (Frame α)} :
    (∃ m, RB (plug t path) m ∧ (plug t path).isRed = false) ↔
      ∃ n, RB t n ∧ RBPath path n ∧ (needsBlack path = true → t.isRed = false) := by
  induction path generalizing t with
  | nil =>
      constructor
      · rintro ⟨m, hm, hblack⟩
        exact ⟨m, hm, .nil, fun _ => hblack⟩
      · rintro ⟨n, hn, -, hblack⟩
        exact ⟨n, hn, hblack rfl⟩
  | cons f path ih =>
      rw [plug, ih]
      obtain ⟨d, red, x, sib⟩ := f
      constructor
      · rintro ⟨n, hn, hpath, hneed⟩
        cases red with
        | true =>
            obtain ⟨ht, hs, bt, bs⟩ := rb_branch_red.mp hn
            have hp : needsBlack path = false := by
              by_contra hne
              simpa [Frame.fill] using hneed (by simpa using hne)
            exact ⟨n, bt, .red hs hp bs hpath, fun _ => ht⟩
        | false =>
            obtain ⟨m, rfl, bt, bs⟩ := rb_branch_black.mp hn
            exact ⟨m, bt, .black bs hpath, fun h => absurd h (by simp [needsBlack])⟩
      · rintro ⟨n, hn, hpath, hneed⟩
        cases hpath with
        | red hs hp bs bp =>
            exact ⟨n, rb_branch_red.mpr ⟨hneed rfl, hs, hn, bs⟩, bp, fun h => absurd h (by simp [hp])⟩
        | black bs bp =>
            exact ⟨n + 1, rb_branch_black.mpr ⟨n, rfl, hn, bs⟩, bp, fun _ => by simp [Frame.fill]⟩

end NginxDtls.Zipper
