import NginxDtls.Rbtree

/-! A heap of tree nodes represents a coloured tree with a focus: the links of the subtree and the links along
the path. Painting a node and rotating at the focus change the represented tree as expected; all that the
loops of the insertion and the deletion do is composed of these two. -/

namespace NginxDtls

open Zipper

namespace RbTree

variable (t : RbTree) (d e : Side) (m n v : Nat) (c : Bool)

/-! ### Reading behind a write -/

@[simp] theorem setChild_child : (t.setChild d n v).child e m = if e = d ∧ m = n then v else t.child e m := by
  by_cases hd : e = d
  · subst hd
    by_cases hm : m = n
    · subst hm
      simp [setChild]
    · simp [setChild, hm]
  · simp [setChild, hd]

@[simp] theorem setChild_parent : (t.setChild d n v).parent = t.parent := rfl

@[simp] theorem setChild_red : (t.setChild d n v).red = t.red := rfl

@[simp] theorem setChild_root : (t.setChild d n v).root = t.root := rfl

@[simp] theorem setChild_sentinel : (t.setChild d n v).sentinel = t.sentinel := rfl

@[simp] theorem setChild_key : (t.setChild d n v).key = t.key := rfl

@[simp] theorem setParent_parent : (t.setParent n v).parent m = if m = n then v else t.parent m :=
  Function.update_apply t.parent n v m

@[simp] theorem setParent_child : (t.setParent n v).child = t.child := rfl

@[simp] theorem setParent_red : (t.setParent n v).red = t.red := rfl

@[simp] theorem setParent_root : (t.setParent n v).root = t.root := rfl

@[simp] theorem setParent_sentinel : (t.setParent n v).sentinel = t.sentinel := rfl

@[simp] theorem setParent_key : (t.setParent n v).key = t.key := rfl

@[simp] theorem setRed_red : (t.setRed n c).red m = if m = n then c else t.red m :=
  Function.update_apply t.red n c m

@[simp] theorem setRed_child : (t.setRed n c).child = t.child := rfl

@[simp] theorem setRed_parent : (t.setRed n c).parent = t.parent := rfl

@[simp] theorem setRed_root : (t.setRed n c).root = t.root := rfl

@[simp] theorem setRed_sentinel : (t.setRed n c).sentinel = t.sentinel := rfl

@[simp] theorem setRed_key : (t.setRed n c).key = t.key := rfl

@[simp] theorem setRoot_child : (t.setRoot n).child = t.child := rfl

@[simp] theorem setRoot_parent : (t.setRoot n).parent = t.parent := rfl

@[simp] theorem setRoot_red : (t.setRoot n).red = t.red := rfl

@[simp] theorem setRoot_root : (t.setRoot n).root = n := rfl

@[simp] theorem setRoot_sentinel : (t.setRoot n).sentinel = t.sentinel := rfl

@[simp] theorem setRoot_key : (t.setRoot n).key = t.key := rfl

@[simp] theorem setKey_child : (t.setKey n v).child = t.child := rfl

@[simp] theorem setKey_parent : (t.setKey n v).parent = t.parent := rfl

@[simp] theorem setKey_red : (t.setKey n v).red = t.red := rfl

@[simp] theorem setKey_root : (t.setKey n v).root = t.root := rfl

@[simp] theorem setKey_sentinel : (t.setKey n v).sentinel = t.sentinel := rfl

@[simp] theorem setKey_key : (t.setKey n v).key m = if m = n then v else t.key m :=
  Function.update_apply t.key n v m

/-! ### Links -/

/-- The pointer to a subtree. -/
def ptr (s : Nat) : BTree Nat → Nat
  | .leaf => s
  | .node _ _ x _ => x

/-- The nodes of a subtree below `par`. Nothing is known of the parent link of a root: a deletion may leave
it pointing to a node that is gone. -/
def Links (t : RbTree) : Option Nat → BTree Nat → Prop
  | _, .leaf => True
  | par, .node red l x r =>
    t.red x = red ∧ t.child .left x = ptr t.sentinel l ∧ t.child .right x = ptr t.sentinel r ∧
      (∀ p, par = some p → t.parent x = p) ∧ Links t (some x) l ∧ Links t (some x) r

/-- The node above the hole of a path. -/
def above : List (Frame Nat) → Option Nat
  | [] => none
  | f :: _ => some f.x

/-- The nodes along a path whose hole is filled by the pointer `hole`. -/
def PathLinks (t : RbTree) : Nat → List (Frame Nat) → Prop
  | hole, [] => t.root = hole
  | hole, f :: path =>
    t.red f.x = f.red ∧ t.child f.side f.x = hole ∧ t.child f.side.flip f.x = ptr t.sentinel f.sib ∧
      (∀ p, above path = some p → t.parent f.x = p) ∧ Links t (some f.x) f.sib ∧ PathLinks t f.x path

/-- The heap represents the subtree `T` at the end of a path. -/
structure Rep (t : RbTree) (T : BTree Nat) (path : List (Frame Nat)) : Prop where
  nodup : (T.toList ++ path.flatMap Frame.elems).Nodup
  sentinel : t.sentinel ∉ T.toList ++ path.flatMap Frame.elems
  black : t.red t.sentinel = false
  links : t.Links (above path) T
  path : t.PathLinks (ptr t.sentinel T) path

/-- Two heaps agree at a node. -/
def Same (t t' : RbTree) (i : Nat) : Prop :=
  t'.red i = t.red i ∧ (∀ d, t'.child d i = t.child d i) ∧ t'.parent i = t.parent i

variable {t d} {t' : RbTree} {T : BTree Nat} {par : Option Nat} {path : List (Frame Nat)} {hole x : Nat}
  {near far : BTree Nat} {red : Bool}

@[simp] theorem ptr_branch {s : Nat} : ptr s (BTree.branch d red x near far) = x := by cases d <;> rfl

theorem links_branch : t.Links par (BTree.branch d red x near far) ↔
    t.red x = red ∧ t.child d x = ptr t.sentinel near ∧ t.child d.flip x = ptr t.sentinel far ∧
      (∀ p, par = some p → t.parent x = p) ∧ t.Links (some x) near ∧ t.Links (some x) far := by
  cases d with
  | left => exact Iff.rfl
  | right =>
      simp only [BTree.branch, Links, Side.flip]
      tauto

theorem Links.congr (h : t.Links par T) (hs : t'.sentinel = t.sentinel)
    (hsame : ∀ i ∈ T.toList, Same t t' i) : t'.Links par T := by
  induction T generalizing par with
  | leaf => trivial
  | node red l x r ihl ihr =>
      obtain ⟨hred, hleft, hright, hpar, hl, hr⟩ := h
      obtain ⟨sred, schild, sparent⟩ := hsame x (by simp [BTree.toList])
      refine ⟨sred.trans hred, ?_, ?_, fun p hp => sparent.trans (hpar p hp), ?_, ?_⟩
      · rw [schild, hleft, hs]
      · rw [schild, hright, hs]
      · exact ihl hl fun i hi => hsame i (by simp [BTree.toList, hi])
      · exact ihr hr fun i hi => hsame i (by simp [BTree.toList, hi])

theorem PathLinks.congr (h : t.PathLinks hole path) (hs : t'.sentinel = t.sentinel)
    (hroot : t'.root = t.root) (hsame : ∀ i ∈ path.flatMap Frame.elems, Same t t' i) :
    t'.PathLinks hole path := by
  induction path generalizing hole with
  | nil => exact hroot.trans h
  | cons f path ih =>
      obtain ⟨hred, hhole, hsib, hpar, hlinks, hpath⟩ := h
      have hx : f.x ∈ (f :: path).flatMap Frame.elems := by simp [Frame.elems]
      obtain ⟨sred, schild, sparent⟩ := hsame f.x hx
      refine ⟨sred.trans hred, ?_, ?_, fun p hp => sparent.trans (hpar p hp), ?_, ?_⟩
      · rw [schild, hhole]
      · rw [schild, hsib, hs]
      · exact hlinks.congr hs fun i hi => hsame i (by simp [Frame.elems, hi])
      · exact ih hpath fun i hi => hsame i (by rw [List.flatMap_cons]; exact List.mem_append_right _ hi)

/-- A subtree that changes hands: only the parent link of its root is new. -/
theorem Links.reparent (h : t.Links par T) (hs : t'.sentinel = t.sentinel) (hnodup : T.toList.Nodup)
    (hsame : ∀ i ∈ T.toList, i ≠ ptr t.sentinel T → Same t t' i) {p : Nat}
    (hroot : T ≠ .leaf → t'.red (ptr t.sentinel T) = t.red (ptr t.sentinel T) ∧
      (∀ d, t'.child d (ptr t.sentinel T) = t.child d (ptr t.sentinel T)) ∧
      t'.parent (ptr t.sentinel T) = p) : t'.Links (some p) T := by
  cases T with
  | leaf => trivial
  | node red l x r =>
      obtain ⟨hred, hleft, hright, -, hl, hr⟩ := h
      obtain ⟨rred, rchild, rparent⟩ := hroot (by simp)
      have hx : x ∉ l.toList ++ r.toList := by
        have := (List.perm_middle.nodup_iff.mp hnodup)
        exact (List.nodup_cons.mp this).1
      refine ⟨rred.trans hred, ?_, ?_, ?_, ?_, ?_⟩
      · rw [hs]
        exact (rchild .left).trans hleft
      · rw [hs]
        exact (rchild .right).trans hright
      · intro q hq
        rw [← Option.some.inj hq]
        exact rparent
      · apply hl.congr hs
        intro i hi
        apply hsame i (by simp [BTree.toList, hi])
        rintro rfl
        exact hx (List.mem_append_left _ hi)
      · apply hr.congr hs
        intro i hi
        apply hsame i (by simp [BTree.toList, hi])
        rintro rfl
        exact hx (List.mem_append_right _ hi)

/-- A path whose hole is filled anew: only one link of its innermost node is new. -/
theorem PathLinks.rehole {f : Frame Nat} {hole' : Nat} (h : t.PathLinks hole (f :: path))
    (hs : t'.sentinel = t.sentinel) (hroot : t'.root = t.root) (hred : t'.red f.x = t.red f.x)
    (hhole : t'.child f.side f.x = hole') (hother : t'.child f.side.flip f.x = t.child f.side.flip f.x)
    (hparent : t'.parent f.x = t.parent f.x)
    (hsame : ∀ i ∈ f.sib.toList ++ path.flatMap Frame.elems, Same t t' i) :
    t'.PathLinks hole' (f :: path) := by
  obtain ⟨lred, -, lsib, lpar, llinks, lpath⟩ := h
  refine ⟨hred.trans lred, hhole, ?_, fun p hp => hparent.trans (lpar p hp), ?_, ?_⟩
  · rw [hother, lsib, hs]
  · exact llinks.congr hs fun i hi => hsame i (List.mem_append_left _ hi)
  · exact lpath.congr hs hroot fun i hi => hsame i (List.mem_append_right _ hi)

/-- The focus moves up and down. -/
theorem rep_cons {f : Frame Nat} : t.Rep T (f :: path) ↔ t.Rep (f.fill T) path := by
  have hperm : (T.toList ++ (f :: path).flatMap Frame.elems).Perm
      ((f.fill T).toList ++ path.flatMap Frame.elems) := by
    rw [List.flatMap_cons, ← List.append_assoc]
    apply List.Perm.append_right
    exact (List.perm_middle.trans (BTree.perm_branch f.side f.red f.x T f.sib).symm)
  have hlinks : t.Links (above (f :: path)) T ∧ t.PathLinks (ptr t.sentinel T) (f :: path) ↔
      t.Links (above path) (f.fill T) ∧ t.PathLinks (ptr t.sentinel (f.fill T)) path := by
    rw [Frame.fill, links_branch, ptr_branch]
    simp only [PathLinks, above]
    tauto
  constructor
  · intro h
    obtain ⟨hl, hp⟩ := hlinks.mp ⟨h.links, h.path⟩
    exact ⟨hperm.nodup_iff.mp h.nodup, fun hm => h.sentinel (hperm.mem_iff.mpr hm), h.black, hl, hp⟩
  · intro h
    obtain ⟨hl, hp⟩ := hlinks.mpr ⟨h.links, h.path⟩
    exact ⟨hperm.nodup_iff.mpr h.nodup, fun hm => h.sentinel (hperm.mem_iff.mp hm), h.black, hl, hp⟩

theorem rep_plug : t.Rep T path ↔ t.Rep (plug T path) [] := by
  induction path generalizing T with
  | nil => exact Iff.rfl
  | cons f path ih => exact rep_cons.trans ih

/-- Down to the far subtree of a node. -/
theorem rep_far : t.Rep (BTree.branch d red x near far) path ↔ t.Rep far (⟨d.flip, red, x, near⟩ :: path) := by
  rw [rep_cons, Frame.fill, BTree.branch_flip]

/-! ### What a representation tells -/

theorem Rep.red_eq (h : t.Rep (BTree.branch d red x near far) path) : t.red x = red :=
  (links_branch.mp h.links).1

theorem Rep.near_eq (h : t.Rep (BTree.branch d red x near far) path) :
    t.child d x = ptr t.sentinel near :=
  (links_branch.mp h.links).2.1

theorem Rep.far_eq (h : t.Rep (BTree.branch d red x near far) path) :
    t.child d.flip x = ptr t.sentinel far :=
  (links_branch.mp h.links).2.2.1

theorem Rep.parent_eq {f : Frame Nat} (h : t.Rep (BTree.branch d red x near far) (f :: path)) :
    t.parent x = f.x :=
  (links_branch.mp h.links).2.2.2.1 f.x rfl

/-- The colour of a subtree, the sentinel being black. -/
theorem Rep.isRed_eq (h : t.Rep T path) : t.red (ptr t.sentinel T) = T.isRed := by
  cases T with
  | leaf => exact h.black
  | node red l x r => exact h.links.1

theorem Rep.ne_sentinel (h : t.Rep (BTree.branch d red x near far) path) : x ≠ t.sentinel := by
  intro hx
  apply h.sentinel
  simp [hx]

theorem Rep.ptr_eq_sentinel_iff (h : t.Rep T path) : ptr t.sentinel T = t.sentinel ↔ T = .leaf := by
  cases T with
  | leaf => exact ⟨fun _ => rfl, fun _ => rfl⟩
  | node red l x r =>
      have hx : x ≠ t.sentinel := Rep.ne_sentinel (d := .left) h
      exact ⟨fun hs => absurd hs hx, fun hl => absurd hl (by simp)⟩

theorem mem_of_ptr {s : Nat} (hs : ptr s T ≠ s) : ptr s T ∈ T.toList := by
  cases T with
  | leaf => exact absurd rfl hs
  | node red l x r => simp [ptr, BTree.toList]

/-- The root lies on the path, if there is one. -/
theorem PathLinks.root_mem {f : Frame Nat} (h : t.PathLinks hole (f :: path)) :
    t.root ∈ (f :: path).flatMap Frame.elems := by
  induction path generalizing hole f with
  | nil =>
      have hroot : t.root = f.x := h.2.2.2.2.2
      simp [hroot, Frame.elems]
  | cons g path ih =>
      have hmem := ih h.2.2.2.2.2
      rw [List.flatMap_cons]
      exact List.mem_append_right _ hmem

/-- A subtree is the whole tree exactly when nothing is above it. -/
theorem Rep.ptr_eq_root_iff (h : t.Rep T path) : ptr t.sentinel T = t.root ↔ path = [] := by
  cases path with
  | nil => exact ⟨fun _ => rfl, fun _ => h.path.symm⟩
  | cons f path =>
      have hroot := h.path.root_mem
      constructor
      · intro heq
        exfalso
        by_cases hs : ptr t.sentinel T = t.sentinel
        · exact h.sentinel (List.mem_append_right _ (by rw [← hs, heq]; exact hroot))
        · exact List.disjoint_of_nodup_append h.nodup (mem_of_ptr hs) (heq ▸ hroot)
      · intro hnil
        exact absurd hnil (List.cons_ne_nil f path)

/-- The side on which a subtree hangs, whichever link is looked at first. -/
theorem Rep.sideOf_eq {f : Frame Nat} (h : t.Rep T (f :: path))
    (hpar : t.parent (ptr t.sentinel T) = f.x) (hne : T ≠ .leaf ∨ f.sib ≠ .leaf) (e : Side) :
    t.sideOf e (ptr t.sentinel T) = f.side := by
  obtain ⟨-, hhole, hsib, -, -, -⟩ := h.path
  have hdiff : ptr t.sentinel T ≠ ptr t.sentinel f.sib := by
    intro heq
    by_cases hs : ptr t.sentinel T = t.sentinel
    · have hrep : t.Rep f.sib (⟨f.side.flip, f.red, f.x, T⟩ :: path) :=
        rep_far.mp (rep_cons.mp h)
      rcases hne with hT | hS
      · exact hT (h.ptr_eq_sentinel_iff.mp hs)
      · exact hS (hrep.ptr_eq_sentinel_iff.mp (heq ▸ hs))
    · have hmem : ptr t.sentinel f.sib ∈ f.sib.toList := mem_of_ptr (heq ▸ hs)
      apply List.disjoint_of_nodup_append h.nodup (mem_of_ptr hs)
      simp [Frame.elems, heq, hmem]
  unfold sideOf
  rw [hpar]
  rcases Side.eq_or_flip f.side e with rfl | rfl
  · rw [hhole, if_pos rfl]
  · rw [hsib, if_neg hdiff, Side.flip_flip]

/-! ### Painting -/

theorem same_setRed {i n : Nat} {c : Bool} (hi : i ≠ n) : Same t (t.setRed n c) i :=
  ⟨by simp [hi], fun _ => rfl, rfl⟩

/-- The focus painted. -/
theorem Rep.setRed (h : t.Rep (BTree.branch d red x near far) path) (c : Bool) :
    (t.setRed x c).Rep (BTree.branch d c x near far) path := by
  have hnodup := h.nodup
  rw [((BTree.perm_branch d red x near far).append_right _).nodup_iff, List.cons_append,
    List.nodup_cons] at hnodup
  have hne : ∀ i ∈ near.toList ++ far.toList ++ path.flatMap Frame.elems, i ≠ x := fun i hi hix =>
    hnodup.1 (hix ▸ hi)
  obtain ⟨-, hnear, hfar, hpar, lnear, lfar⟩ := links_branch.mp h.links
  have htoList : (BTree.branch d c x near far).toList = (BTree.branch d red x near far).toList :=
    BTree.toList_recolor d c red x near far
  refine ⟨htoList ▸ h.nodup, ?_, ?_, links_branch.mpr ⟨by simp, hnear, hfar, hpar, ?_, ?_⟩, ?_⟩
  · rw [htoList]
    exact h.sentinel
  · rw [setRed_sentinel, setRed_red, if_neg (Ne.symm h.ne_sentinel), h.black]
  · exact lnear.congr rfl fun i hi => same_setRed (hne i (by simp [hi]))
  · exact lfar.congr rfl fun i hi => same_setRed (hne i (by simp [hi]))
  · have hpath := h.path
    rw [ptr_branch] at hpath ⊢
    exact hpath.congr rfl rfl fun i hi => same_setRed (hne i (List.mem_append_right _ hi))

/-- A leaf painted black stays what it is. -/
theorem Rep.setBlack (h : t.Rep T path) :
    (t.setRed (ptr t.sentinel T) false).Rep T.blacken path := by
  cases T with
  | leaf =>
      have hsame : ∀ i, Same t (t.setRed t.sentinel false) i := by
        intro i
        refine ⟨?_, fun _ => rfl, rfl⟩
        rw [setRed_red]
        split_ifs with hi
        · rw [hi, h.black]
        · rfl
      refine ⟨h.nodup, h.sentinel, ?_, trivial, ?_⟩
      · simp [ptr]
      · exact h.path.congr rfl rfl fun i _ => hsame i
  | node red l x r => exact Rep.setRed (d := .left) h false

/-! ### Rotation -/

section Rotate

variable {y : Nat} {rx ry : Bool} {a b c : BTree Nat}

@[simp] theorem rotate_red : (t.rotate d x).red = t.red := by
  simp only [rotate]
  split_ifs <;> rfl

@[simp] theorem rotate_key : (t.rotate d x).key = t.key := by
  simp only [rotate]
  split_ifs <;> rfl

@[simp] theorem rotate_sentinel : (t.rotate d x).sentinel = t.sentinel := by
  simp only [rotate]
  split_ifs <;> rfl

/-- The links behind a rotation that brings `y` up and hands its inner subtree `z` to `x`. -/
theorem rotate_links (hy : t.child d.flip x = y) (hxy : x ≠ y) {z : Nat} (hz : t.child d y = z)
    (hzx : z ≠ x) (hpx : x ≠ t.root → t.parent x ≠ x) :
    (t.rotate d x).root = (if x = t.root then y else t.root) ∧
      (∀ m, (t.rotate d x).parent m = if m = x then y else if m = y then t.parent x
        else if z ≠ t.sentinel ∧ m = z then x else t.parent m) ∧
      ∀ e m, (t.rotate d x).child e m = if e = d ∧ m = y then x
        else if x ≠ t.root ∧ e = t.sideOf d x ∧ m = t.parent x then y
        else if e = d.flip ∧ m = x then z else t.child e m := by
  unfold rotate
  extract_lets temp t₁ t₂ t₃ t₄ t₅
  have htemp : temp = y := hy
  have hz₁ : t₁.child d temp = z := by
    simp only [t₁, setChild_child, htemp, hz, ite_self]
  have hc₂ : t₂.child = t₁.child := by
    simp only [t₂]
    split_ifs <;> rfl
  have hr₂ : t₂.root = t.root := by
    simp only [t₂]
    split_ifs <;> rfl
  have hp₂ : ∀ m, t₂.parent m = if z ≠ t.sentinel ∧ m = z then x else t.parent m := by
    intro m
    simp only [t₂, hz₁]
    by_cases hs : z = t.sentinel
    · have hs₁ : ¬z ≠ t₁.sentinel := not_not.mpr hs
      rw [if_neg hs₁, if_neg fun h => h.1 hs]
      rfl
    · have hs₁ : z ≠ t₁.sentinel := hs
      rw [if_pos hs₁, setParent_parent]
      simp only [ne_eq, hs, not_false_eq_true, true_and]
      rfl
  have hpx₃ : t₃.parent x = t.parent x := by
    simp only [t₃, setParent_parent, htemp, if_neg hxy, hp₂]
    rw [if_neg fun h => hzx h.2.symm]
  have hc₃ : ∀ e m, t₃.child e m = if e = d.flip ∧ m = x then z else t.child e m := by
    intro e m
    simp only [t₃, setParent_child, hc₂, t₁, setChild_child, htemp, hz]
  have hside : x ≠ t.root → t₃.sideOf d x = t.sideOf d x := by
    intro hroot
    simp only [sideOf, hpx₃, hc₃, if_neg fun h : d = d.flip ∧ t.parent x = x => hpx hroot h.2]
  have hr₃ : t₃.root = t.root := hr₂
  refine ⟨?_, ?_, ?_⟩
  · have hr₅ : t₅.root = t₄.root := rfl
    rw [setParent_root, hr₅]
    simp only [t₄, hr₃]
    split_ifs with hroot
    · exact htemp
    · exact hr₃
  · intro m
    have hp₅ : t₅.parent = t₃.parent := by
      simp only [t₅, t₄, setChild_parent]
      split_ifs <;> rfl
    rw [setParent_parent, hp₅, htemp]
    simp only [t₃, setParent_parent, htemp, hp₂, if_neg fun h : z ≠ t.sentinel ∧ x = z => hzx h.2.symm]
  · intro e m
    have hc₄ : ∀ e m, t₄.child e m =
        if x ≠ t.root ∧ e = t.sideOf d x ∧ m = t.parent x then y else t₃.child e m := by
      intro e m
      simp only [t₄, hr₃]
      by_cases hroot : x = t.root
      · rw [if_pos hroot, if_neg fun h => h.1 hroot]
        rfl
      · rw [if_neg hroot, setChild_child, hside hroot, hpx₃, htemp]
        simp only [ne_eq, hroot, not_false_eq_true, true_and]
    rw [setParent_child, setChild_child, hc₄, hc₃, htemp]

/-- The far child of the focus comes up. -/
theorem Rep.rotate (h : t.Rep (BTree.branch d rx x a (BTree.branch d ry y b c)) path) :
    (t.rotate d x).Rep (BTree.branch d ry y (BTree.branch d rx x a b) c) path := by
  have hup : t.Rep (BTree.branch d ry y b c) (⟨d.flip, rx, x, a⟩ :: path) := rep_far.mp h
  obtain ⟨hredx, hnear, hfar, hpar, la, -⟩ := links_branch.mp h.links
  obtain ⟨hredy, hnear', hfar', -, lb, lc⟩ := links_branch.mp hup.links
  rw [ptr_branch] at hfar
  -- all elements are different
  have hperm : (BTree.branch d rx x a (BTree.branch d ry y b c)).toList.Perm
      (x :: y :: (a.toList ++ b.toList ++ c.toList)) := by
    refine (BTree.perm_branch d rx x a _).trans (List.Perm.cons x ?_)
    refine ((BTree.perm_branch d ry y b c).append_left a.toList).trans ?_
    rw [List.append_assoc]
    exact List.perm_middle
  have hperm' : (BTree.branch d ry y (BTree.branch d rx x a b) c).toList.Perm
      (BTree.branch d rx x a (BTree.branch d ry y b c)).toList := by
    rw [BTree.toList_rotate]
  have hnodup := h.nodup
  rw [(hperm.append_right _).nodup_iff] at hnodup
  simp only [List.cons_append, List.nodup_cons, List.nodup_append, List.mem_cons, List.mem_append,
    not_or] at hnodup
  obtain ⟨⟨hxy, ⟨⟨hxa, hxb⟩, hxc⟩, hxP⟩, ⟨⟨⟨hya, hyb⟩, hyc⟩, hyP⟩, ⟨⟨⟨-, nb, dab⟩, -, dabc⟩, -, dP⟩⟩ :=
    hnodup
  set z := ptr t.sentinel b with hz
  have hzb : z ≠ t.sentinel → z ∈ b.toList := fun hs => mem_of_ptr hs
  have hxs : x ≠ t.sentinel := h.ne_sentinel
  have hys : y ≠ t.sentinel := hup.ne_sentinel
  have hzx : z ≠ x := fun hzx => hxb (hzx ▸ hzb (hzx ▸ hxs))
  have hzy : z ≠ y := fun hzy => hyb (hzy ▸ hzb (hzy ▸ hys))
  -- the parent of `x` is on the path
  have hparP : x ≠ t.root → t.parent x ∈ path.flatMap Frame.elems := by
    intro hroot
    cases path with
    | nil => exact absurd h.path.symm (by simpa using hroot)
    | cons f path =>
        rw [hpar f.x rfl]
        simp [Frame.elems]
  obtain ⟨rroot, rparent, rchild⟩ := rotate_links hfar hxy hnear' hzx
    (fun hroot heq => hxP (heq ▸ hparP hroot))
  have hsame : ∀ i, i ≠ x → i ≠ y → (z ≠ t.sentinel → i ≠ z) → (x ≠ t.root → i ≠ t.parent x) →
      Same t (t.rotate d x) i := by
    intro i hix hiy hiz hip
    refine ⟨by rw [rotate_red], fun e => ?_, ?_⟩
    · rw [rchild, if_neg fun hc => hiy hc.2, if_neg fun hc => hip hc.1 hc.2.2, if_neg fun hc => hix hc.2]
    · rw [rparent, if_neg hix, if_neg hiy, if_neg fun hc => hiz hc.1 hc.2]
  refine ⟨?_, ?_, ?_, ?_, ?_⟩
  · rw [(hperm'.append_right _).nodup_iff]
    exact h.nodup
  · rw [rotate_sentinel, (hperm'.append_right _).mem_iff]
    exact h.sentinel
  · rw [rotate_sentinel, rotate_red]
    exact h.black
  · have hparne : ∀ i, i ∉ path.flatMap Frame.elems → x ≠ t.root → i ≠ t.parent x := fun i hi hroot heq =>
      hi (heq ▸ hparP hroot)
    have hout : ∀ i, (i ∈ a.toList ∨ i ∈ b.toList) ∨ i ∈ c.toList → i ∉ path.flatMap Frame.elems :=
      fun i hi hiP => dP i hi i hiP rfl
    refine links_branch.mpr ⟨by rw [rotate_red, hredy], ?_, ?_, ?_, links_branch.mpr
      ⟨by rw [rotate_red, hredx], ?_, ?_, ?_, ?_, ?_⟩, ?_⟩
    · rw [ptr_branch, rchild, if_pos ⟨rfl, rfl⟩]
    · rw [rchild, if_neg fun hc => d.flip_ne hc.1, if_neg fun hc => hparne y hyP hc.1 hc.2.2,
        if_neg fun hc => hxy hc.2.symm, hfar', rotate_sentinel]
    · intro p hp
      rw [rparent, if_neg (Ne.symm hxy), if_pos rfl, hpar p hp]
    · rw [rchild, if_neg fun hc => hxy hc.2, if_neg fun hc => hparne x hxP hc.1 hc.2.2,
        if_neg fun hc => d.flip_ne hc.1.symm, hnear, rotate_sentinel]
    · rw [rchild, if_neg fun hc => hxy hc.2, if_neg fun hc => hparne x hxP hc.1 hc.2.2, if_pos ⟨rfl, rfl⟩,
        rotate_sentinel]
    · intro p hp
      rw [← Option.some.inj hp, rparent, if_pos rfl]
    · apply la.congr rotate_sentinel
      intro i hi
      exact hsame i (fun hix => hxa (hix ▸ hi)) (fun hiy => hya (hiy ▸ hi))
        (fun hs hiz => dab i hi z (hzb hs) hiz) (hparne i (hout i (.inl (.inl hi))))
    · apply lb.reparent rotate_sentinel nb
      · intro i hi hne
        exact hsame i (fun hix => hxb (hix ▸ hi)) (fun hiy => hyb (hiy ▸ hi)) (fun _ => hne)
          (hparne i (hout i (.inl (.inr hi))))
      · intro hleaf
        have hs : z ≠ t.sentinel := by
          intro hs
          have hrep : t.Rep b (⟨d, ry, y, c⟩ :: ⟨d.flip, rx, x, a⟩ :: path) := rep_cons.mpr hup
          exact hleaf (hrep.ptr_eq_sentinel_iff.mp hs)
        have hzP := hout z (.inl (.inr (hzb hs)))
        refine ⟨by rw [rotate_red], fun e => ?_, ?_⟩
        · rw [rchild, if_neg fun hc => hzy hc.2, if_neg fun hc => hparne z hzP hc.1 hc.2.2,
            if_neg fun hc => hzx hc.2]
        · rw [rparent, if_neg hzx, if_neg hzy, if_pos ⟨hs, rfl⟩]
    · apply lc.congr rotate_sentinel
      intro i hi
      exact hsame i (fun hix => hxc (hix ▸ hi)) (fun hiy => hyc (hiy ▸ hi))
        (fun hs hiz => dabc z (.inr (hzb hs)) i hi hiz.symm) (hparne i (hout i (.inr hi)))
  · have hpath := h.path
    rw [ptr_branch] at hpath ⊢
    have hroot := h.ptr_eq_root_iff
    rw [ptr_branch] at hroot
    cases path with
    | nil =>
        have hx : x = t.root := hroot.mpr rfl
        exact rroot.trans (if_pos hx)
    | cons f path =>
        have hx : x ≠ t.root := fun hx => List.cons_ne_nil f path (hroot.mp hx)
        have hparx : t.parent x = f.x := hpar f.x rfl
        have hside : t.sideOf d x = f.side := by
          have := h.sideOf_eq (by rw [ptr_branch, hparx]) (.inl (by cases d <;> simp [BTree.branch])) d
          rwa [ptr_branch] at this
        have hfP : f.x ∈ (f :: path).flatMap Frame.elems := by simp [Frame.elems]
        have hfx : f.x ≠ x := fun heq => hxP (heq ▸ hfP)
        have hfy : f.x ≠ y := fun heq => hyP (heq ▸ hfP)
        have hPz : ∀ i ∈ (f :: path).flatMap Frame.elems, z ≠ t.sentinel → i ≠ z := fun i hi hs hiz =>
          dP z (.inl (.inr (hzb hs))) i hi hiz.symm
        have hfnodup : ((f :: path).flatMap Frame.elems).Nodup := (List.nodup_append.mp h.nodup).2.1
        rw [List.flatMap_cons, Frame.elems, List.cons_append, List.nodup_cons] at hfnodup
        apply hpath.rehole rotate_sentinel (rroot.trans (if_neg hx)) (by rw [rotate_red])
        · rw [rchild, if_neg fun hc => hfy hc.2, if_pos ⟨hx, hside.symm, hparx.symm⟩]
        · rw [rchild, if_neg fun hc => hfy hc.2, if_neg fun hc => f.side.flip_ne (hc.2.1.trans hside),
            if_neg fun hc => hfx hc.2]
        · rw [rparent, if_neg hfx, if_neg hfy, if_neg fun hc => hPz f.x hfP hc.1 hc.2]
        · intro i hi
          have hiP : i ∈ (f :: path).flatMap Frame.elems := by
            rw [List.flatMap_cons, Frame.elems, List.cons_append]
            exact List.mem_cons_of_mem f.x hi
          exact hsame i (fun hix => hxP (hix ▸ hiP)) (fun hiy => hyP (hiy ▸ hiP)) (hPz i hiP)
            (fun _ heq => hfnodup.1 (by rw [← hparx, ← heq]; exact hi))

end Rotate

end RbTree

end NginxDtls
