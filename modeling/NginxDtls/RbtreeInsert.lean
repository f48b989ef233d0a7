import NginxDtls.RbtreeRep

/-! Insertion into a red-black tree: the descent puts the new node between its neighbours in order, and the
re-balancing loop restores the colours without touching the order. -/

namespace NginxDtls

open Zipper RbTree

variable {t : RbTree} {T : BTree Nat} {path : List (Frame Nat)}

/-! ### Re-balancing -/

/-- What the loop leaves: painting the root black gives a red-black tree with the same elements in the same
order. -/
def InsertFixed (t : RbTree) (elems : List Nat) (key : Nat → Nat) (sentinel : Nat) : Prop :=
  ∃ T m, (t.setRed t.root false).Rep T [] ∧ T.toList = elems ∧ RB T m ∧ T.isRed = false ∧ t.key = key ∧
    t.sentinel = sentinel

/-- A tree that is red-black up to the colour of its root. -/
theorem InsertFixed.of_rep (h : t.Rep T []) {m : Nat} (hrb : RB T m) :
    InsertFixed t T.toList t.key t.sentinel := by
  have hroot : t.root = ptr t.sentinel T := h.path
  have hblack := h.setBlack
  rw [← hroot] at hblack
  have hred : T.blacken.isRed = false := by cases T <;> rfl
  exact ⟨T.blacken, _, hblack, T.toList_blacken, hrb.blacken, hred, rfl, rfl⟩

section Rounds

variable {d : Side} {p q x : Nat} {a b c u : BTree Nat} {gs : List (Frame Nat)}

/-- The last three lines of a round: the parent is painted black and comes up in place of the grandparent. -/
theorem RbTree.Rep.insertOuter (h : t.Rep T (⟨d, true, p, c⟩ :: ⟨d, false, q, u⟩ :: gs)) :
    (((t.setRed p false).setRed q true).rotate d.flip q).Rep T
      (⟨d, false, p, BTree.branch d.flip true q u c⟩ :: gs) := by
  have hp : t.Rep (BTree.branch d true p T c) (⟨d, false, q, u⟩ :: gs) := rep_cons.mp h
  have hq : (t.setRed p false).Rep (BTree.branch d false q (BTree.branch d false p T c) u) gs :=
    rep_cons.mp (hp.setRed false)
  have hrot := hq.setRed true
  rw [← BTree.branch_flip, ← BTree.branch_flip d false p] at hrot
  have hup := rep_far.mp hrot.rotate
  rwa [Side.flip_flip] at hup

/-- The uncle is red: it takes the colour of the grandparent together with the parent. -/
theorem RbTree.Rep.insertRecolor {e : Side} (h : t.Rep T (⟨e, true, p, c⟩ :: ⟨d, false, q, u⟩ :: gs)) :
    (((t.setRed p false).setRed (ptr t.sentinel u) false).setRed q true).Rep
      (BTree.branch d true q (BTree.branch e false p T c) u.blacken) gs := by
  have hp : t.Rep (BTree.branch e true p T c) (⟨d, false, q, u⟩ :: gs) := rep_cons.mp h
  have hq : (t.setRed p false).Rep (BTree.branch d false q (BTree.branch e false p T c) u) gs :=
    rep_cons.mp (hp.setRed false)
  have hu := (rep_far.mp hq).setBlack
  exact (rep_far.mpr hu).setRed true

end Rounds

/-- The pointers that a round reads: parent, grandparent, and the side of the parent. -/
theorem RbTree.Rep.insertReads {d d₀ e : Side} {x p q : Nat} {a b c u : BTree Nat} {gs : List (Frame Nat)}
    {red rp rq : Bool}
    (h : t.Rep (BTree.branch d₀ red x a b) (⟨e, rp, p, c⟩ :: ⟨d, rq, q, u⟩ :: gs)) :
    t.parent x = p ∧ t.parent p = q ∧ t.red p = rp ∧ t.sideOf .left p = d ∧ x ≠ t.root ∧
      t.child d.flip q = ptr t.sentinel u ∧ t.child e p = x ∧ t.child e.flip p = ptr t.sentinel c := by
  have hp : t.Rep (BTree.branch e rp p (BTree.branch d₀ red x a b) c) (⟨d, rq, q, u⟩ :: gs) := rep_cons.mp h
  have hq : t.Rep (BTree.branch d rq q _ u) gs := rep_cons.mp hp
  have hparent : t.parent p = q := hp.parent_eq
  have hside := hp.sideOf_eq (by rw [ptr_branch, hparent]) (.inl (by cases e <;> simp [BTree.branch])) .left
  have hroot := h.ptr_eq_root_iff
  rw [ptr_branch] at hside hroot
  have hx : x ≠ t.root := fun hx => absurd (hroot.mp hx) (by simp)
  have hnear := hp.near_eq
  rw [ptr_branch] at hnear
  exact ⟨h.parent_eq, hparent, hp.red_eq, hside, hx, hq.far_eq, hnear, hp.far_eq⟩

/-- A red node whose parent may be red as well, in a tree that is red-black otherwise. -/
structure InsertState (t : RbTree) (x : Nat) (path : List (Frame Nat)) (elems : List Nat)
    (key : Nat → Nat) (sentinel : Nat) : Prop where
  rep : ∃ d a b n, t.Rep (BTree.branch d true x a b) path ∧ RB (BTree.branch d true x a b) n ∧ RBPath path n ∧
    (plug (BTree.branch d true x a b) path).toList = elems
  key : t.key = key
  sentinel : t.sentinel = sentinel

/-- A round below a red parent moves the state up. -/
theorem rbtreeInsertRound_state {d₀ d e : Side} {x p q n : Nat} {a b c u : BTree Nat}
    {gs : List (Frame Nat)} (h : t.Rep (BTree.branch d₀ true x a b) (⟨e, true, p, c⟩ :: ⟨d, false, q, u⟩ :: gs))
    (hrb : RB (BTree.branch d₀ true x a b) n) (hc : c.isRed = false) (bc : RB c n) (bu : RB u n)
    (bgs : RBPath gs (n + 1)) :
    ∃ path', path'.length < gs.length + 2 ∧
      InsertState (rbtreeInsertRound d t x).1 (rbtreeInsertRound d t x).2 path'
        (plug (BTree.branch d₀ true x a b) (⟨e, true, p, c⟩ :: ⟨d, false, q, u⟩ :: gs)).toList t.key
        t.sentinel := by
  obtain ⟨hparent, hgrand, hredp, -, hroot, huncle, hx, hsib⟩ := h.insertReads
  have hq : t.Rep (BTree.branch d false q (BTree.branch e true p (BTree.branch d₀ true x a b) c) u) gs :=
    rep_cons.mp (rep_cons.mp h)
  have hredu : t.red (ptr t.sentinel u) = u.isRed := (rep_far.mp hq).isRed_eq
  simp only [rbtreeInsertRound, hparent, hgrand, huncle, hredu]
  by_cases hu : u.isRed = true
  · -- the uncle is red
    refine ⟨gs, by omega, ?_⟩
    simp only [if_pos hu, setRed_parent, hparent, hgrand]
    have hbu := bu.blacken
    rw [if_pos hu] at hbu
    have hblack : u.blacken.isRed = false := by cases u <;> rfl
    refine ⟨⟨d, _, _, n + 1, h.insertRecolor, ?_, bgs, ?_⟩, rfl, rfl⟩
    · exact rb_branch_red.mpr ⟨by simp, hblack, rb_branch_black.mpr ⟨n, rfl, hrb, bc⟩, hbu⟩
    · apply toList_plug_congr
      cases d <;> cases e <;> simp [Frame.fill, BTree.branch, BTree.toList]
  · have hu' : u.isRed = false := by simpa using hu
    simp only [if_neg hu]
    rcases Side.eq_or_flip d e with rfl | rfl
    · -- the node is an outer grandchild
      have hne : x ≠ t.child e.flip p := by
        rw [hsib]
        intro heq
        have hmem := h.nodup
        have hs : ptr t.sentinel c ≠ t.sentinel := heq ▸ h.ne_sentinel
        apply List.disjoint_of_nodup_append h.nodup (a := x) (by simp)
        simp only [List.flatMap_cons, Frame.elems, List.mem_append, List.mem_cons]
        exact .inl (.inr (heq ▸ mem_of_ptr hs))
      simp only [if_neg hne, setRed_parent, hparent, hgrand]
      refine ⟨⟨e, false, p, BTree.branch e.flip true q u c⟩ :: gs, by simp, ?_⟩
      refine ⟨⟨d₀, a, b, n, h.insertOuter, hrb, ?_, ?_⟩, by simp, by simp⟩
      · exact .black (rb_branch_red.mpr ⟨hu', hc, bu, bc⟩) bgs
      · refine toList_plug_congr ?_ gs
        cases e <;> simp [Frame.fill, BTree.branch, BTree.toList, Side.flip]
    · -- an inner grandchild changes places with its parent first
      obtain ⟨a', b', hT⟩ : ∃ a' b', BTree.branch d₀ true x a b = BTree.branch d true x a' b' := by
        rcases Side.eq_or_flip d d₀ with rfl | rfl
        · exact ⟨a, b, rfl⟩
        · exact ⟨b, a, BTree.branch_flip d true x a b⟩
      rw [hT] at h hrb ⊢
      obtain ⟨ha, hb, ba, bb⟩ := rb_branch_red.mp hrb
      have hp : t.Rep (BTree.branch d true p c (BTree.branch d true x a' b')) (⟨d, false, q, u⟩ :: gs) := by
        have hup : t.Rep (BTree.branch d.flip true p (BTree.branch d true x a' b') c) (⟨d, false, q, u⟩ :: gs) :=
          rep_cons.mp h
        rwa [BTree.branch_flip] at hup
      have hrot : (t.rotate d p).Rep (BTree.branch d true p c a')
          (⟨d, true, x, b'⟩ :: ⟨d, false, q, u⟩ :: gs) := rep_cons.mpr hp.rotate
      obtain ⟨hparent', hgrand', -⟩ := hrot.insertReads
      simp only [if_pos hx.symm, setRed_parent, hparent', hgrand']
      refine ⟨⟨d, false, x, BTree.branch d.flip true q u b'⟩ :: gs, by simp, ?_⟩
      refine ⟨⟨d, c, a', n, hrot.insertOuter, rb_branch_red.mpr ⟨hc, ha, bc, ba⟩, ?_, ?_⟩, by simp, by simp⟩
      · exact .black (rb_branch_red.mpr ⟨hu', hb, bu, bb⟩) bgs
      · refine toList_plug_congr ?_ gs
        cases d <;> simp [Frame.fill, BTree.branch, BTree.toList, Side.flip]

/-- The loop ends with the order of the tree unchanged. The path above the node gets shorter with every
round, by two frames when the colours move up and by one behind a rotation. -/
theorem rbtreeInsertFixup_fixed (fuel : Nat) (d₀ : Side) {x : Nat} {a b : BTree Nat} {n : Nat}
    (h : t.Rep (BTree.branch d₀ true x a b) path) (hrb : RB (BTree.branch d₀ true x a b) n)
    (hpath : RBPath path n) (hfuel : path.length < fuel) :
    ∃ t', rbtreeInsertFixup fuel t x = some t' ∧
      InsertFixed t' (plug (BTree.branch d₀ true x a b) path).toList t.key t.sentinel := by
  induction fuel generalizing t path d₀ x a b n with
  | zero => exact absurd hfuel (Nat.not_lt_zero _)
  | succ fuel ih =>
      cases hpath with
      | nil =>
          have hroot : t.root = x := h.path.trans ptr_branch
          refine ⟨t, ?_, .of_rep h hrb⟩
          rw [rbtreeInsertFixup, if_neg fun hc => hc.1 hroot.symm]
      | @black e p c path _ bs bp =>
          -- the parent is black
          have hp : t.Rep (BTree.branch e false p (BTree.branch d₀ true x a b) c) path := rep_cons.mp h
          have hred : t.red (t.parent x) = false := by rw [h.parent_eq, hp.red_eq]
          obtain ⟨m, hm, -⟩ := rb_plug.mpr ⟨n, hrb, RBPath.black (d := e) (x := p) bs bp, by intro hneed; cases hneed⟩
          refine ⟨t, ?_, .of_rep (rep_plug.mp h) hm⟩
          rw [rbtreeInsertFixup, if_neg fun hc => by simp [hred] at hc]
      | @red e p c path _ hs hneed bs bp =>
          cases bp with
          | nil => exact absurd hneed (by simp [needsBlack])
          | @red e' p' c' path _ hs' hneed' bs' bp' => exact absurd hneed (by simp [needsBlack])
          | @black d q u gs _ bu bgs =>
              obtain ⟨hparent, -, hredp, hside, hroot, -⟩ := h.insertReads
              rw [rbtreeInsertFixup, if_pos ⟨hroot, by rw [hparent, hredp]⟩, hparent, hside]
              obtain ⟨path', hlen, ⟨d', a', b', n', hrep, hrb', hpath', helems⟩, hkey, hsent⟩ :=
                rbtreeInsertRound_state h hrb hs bs bu bgs
              have := ih d' hrep hrb' hpath' (by simp at hfuel; omega)
              rwa [helems, hkey, hsent] at this

/-! ### The descent -/

/-- A new leaf node hung into an empty place. -/
def rbtreeAttach (t : RbTree) (d : Side) (temp node : Nat) : RbTree :=
  let t := t.setChild d temp node
  let t := t.setParent node temp
  let t := t.setChild .left node t.sentinel
  let t := t.setChild .right node t.sentinel
  t.setRed node true

theorem RbTree.Rep.attach {f : Frame Nat} {z : Nat} (h : t.Rep .leaf (f :: path))
    (hz : z ∉ (f :: path).flatMap Frame.elems) (hzs : z ≠ t.sentinel) :
    (rbtreeAttach t f.side f.x z).Rep (.node true .leaf z .leaf) (f :: path) := by
  have hsame : ∀ i, i ≠ z → i ≠ f.x → Same t (rbtreeAttach t f.side f.x z) i := by
    intro i hiz hif
    refine ⟨?_, fun e => ?_, ?_⟩
    · simp [rbtreeAttach, hiz]
    · simp [rbtreeAttach, hiz, hif]
    · simp [rbtreeAttach, hiz]
  have hfP : f.x ∈ (f :: path).flatMap Frame.elems := by simp [Frame.elems]
  have hfz : f.x ≠ z := fun heq => hz (heq ▸ hfP)
  have hnodup : ((f :: path).flatMap Frame.elems).Nodup := h.nodup
  refine ⟨?_, ?_, ?_, ?_, ?_⟩
  · exact List.nodup_cons.mpr ⟨hz, h.nodup⟩
  · intro hm
    rcases List.mem_cons.mp hm with hm | hm
    · exact hzs hm.symm
    · exact h.sentinel hm
  · simp [rbtreeAttach, Ne.symm hzs, h.black]
  · refine ⟨?_, ?_, ?_, ?_, trivial, trivial⟩
    · simp [rbtreeAttach]
    · simp [rbtreeAttach, ptr]
    · simp [rbtreeAttach, ptr]
    · intro p hp
      rw [← Option.some.inj hp]
      simp [rbtreeAttach]
  · rw [List.flatMap_cons, Frame.elems, List.cons_append, List.nodup_cons] at hnodup
    apply h.path.rehole
    · rfl
    · rfl
    · simp [rbtreeAttach, hfz]
    · simp [rbtreeAttach, hfz, ptr]
    · simp [rbtreeAttach, hfz, f.side.flip_ne]
    · simp [rbtreeAttach, hfz]
    · intro i hi
      apply hsame i
      · rintro rfl
        apply hz
        rw [List.flatMap_cons, Frame.elems, List.cons_append]
        exact List.mem_cons_of_mem _ hi
      · rintro rfl
        exact hnodup.1 hi

/-- The neighbours of an empty place on the way to which `z` was compared with every node. -/
def Between (goesLeft : Nat → Nat → Bool) (z : Nat) (path : List (Frame Nat)) : Prop :=
  (∀ y, (before path).getLast? = some y → goesLeft z y = false) ∧
    ∀ y, (after path).head? = some y → goesLeft z y = true

theorem Between.cons {goesLeft : Nat → Nat → Bool} {z : Nat} (h : Between goesLeft z path) {d : Side}
    {red : Bool} {x : Nat} {sib : BTree Nat} (hd : d = if goesLeft z x then .left else .right) :
    Between goesLeft z (⟨d, red, x, sib⟩ :: path) := by
  cases hx : goesLeft z x with
  | true =>
      obtain rfl : d = .left := by simpa [hx] using hd
      constructor
      · intro y hy
        exact h.1 y (by simpa [before] using hy)
      · intro y hy
        obtain rfl : x = y := by simpa [after] using hy
        exact hx
  | false =>
      obtain rfl : d = .right := by simpa [hx] using hd
      constructor
      · intro y hy
        obtain rfl : x = y := by simpa [before] using hy
        exact hx
      · intro y hy
        exact h.2 y (by simpa [after] using hy)

/-- The descent ends in an empty place between the neighbours of the new node, and hangs it there. -/
theorem rbtreeInsertBelow_rep (goesLeft : Nat → Nat → Bool) {z : Nat} (fuel : Nat) {red : Bool} {x : Nat}
    {l r : BTree Nat} (h : t.Rep (.node red l x r) path)
    (hz : z ∉ (BTree.node red l x r).toList ++ path.flatMap Frame.elems) (hzs : z ≠ t.sentinel)
    (hbetween : Between goesLeft z path) (hfuel : (BTree.node red l x r).toList.length ≤ fuel) :
    ∃ t' path', rbtreeInsertBelow goesLeft fuel t x z = some t' ∧
      t'.Rep (.node true .leaf z .leaf) path' ∧ plug .leaf path' = plug (.node red l x r) path ∧
      Between goesLeft z path' ∧ t'.key = t.key ∧ t'.sentinel = t.sentinel := by
  induction fuel generalizing path red x l r with
  | zero => simp [BTree.toList] at hfuel
  | succ fuel ih =>
      -- the side to go, and the subtree there
      obtain ⟨d, hd⟩ : ∃ d, d = if goesLeft z x then Side.left else Side.right := ⟨_, rfl⟩
      obtain ⟨near, far, hT⟩ : ∃ near far, BTree.node red l x r = BTree.branch d red x near far := by
        cases d with
        | left => exact ⟨l, r, rfl⟩
        | right => exact ⟨r, l, rfl⟩
      rw [hT] at h hz hfuel ⊢
      have hdown : t.Rep near (⟨d, red, x, far⟩ :: path) := rep_cons.mpr h
      have hnear : t.child d x = ptr t.sentinel near := h.near_eq
      have hbetween' : Between goesLeft z (⟨d, red, x, far⟩ :: path) := hbetween.cons hd
      have hzdown : z ∉ near.toList ++ (⟨d, red, x, far⟩ :: path : List (Frame Nat)).flatMap Frame.elems := by
        intro hm
        apply hz
        simp only [List.flatMap_cons, Frame.elems, List.mem_append, List.mem_cons, BTree.mem_branch] at hm ⊢
        tauto
      rw [rbtreeInsertBelow, ← hd, hnear]
      cases near with
      | leaf =>
          rw [if_pos (by rfl)]
          refine ⟨_, _, rfl, hdown.attach (fun hm => hzdown (List.mem_append_right _ hm)) hzs, rfl, hbetween',
            rfl, rfl⟩
      | node red' l' x' r' =>
          have hne : ptr t.sentinel (.node red' l' x' r') ≠ t.sentinel := fun hs =>
            absurd (hdown.ptr_eq_sentinel_iff.mp hs) (by simp)
          rw [if_neg hne]
          have hlen := (BTree.perm_branch d red x (.node red' l' x' r') far).length_eq
          rw [List.length_cons, List.length_append] at hlen
          exact ih hdown hzdown hbetween' (by omega)

/-! ### The whole insertion -/

/-- The heap holds a red-black tree with a black root. -/
structure RbTree.Valid (t : RbTree) (T : BTree Nat) : Prop where
  rep : t.Rep T []
  height : ∃ m, RB T m
  black : T.isRed = false

theorem length_le_elems (path : List (Frame Nat)) : path.length ≤ (path.flatMap Frame.elems).length := by
  induction path with
  | nil => exact le_rfl
  | cons f path ih =>
      rw [List.flatMap_cons, List.length_append, List.length_cons, Frame.elems, List.length_cons]
      omega

/-- The first node of a tree. -/
theorem rbtreeInsertFirst_valid (h : t.Rep .leaf []) {z : Nat} (hzs : z ≠ t.sentinel) :
    ((((t.setParent z ngxNull).setChild .left z t.sentinel).setChild .right z t.sentinel).setRed z false
      |>.setRoot z).Valid (.node false .leaf z .leaf) := by
  refine ⟨⟨?_, ?_, ?_, ?_, ?_⟩, ⟨1, .black .leaf .leaf⟩, rfl⟩
  · simp [BTree.toList]
  · simpa [BTree.toList] using Ne.symm hzs
  · simp [Ne.symm hzs, h.black]
  · refine ⟨?_, ?_, ?_, ?_, trivial, trivial⟩
    · simp
    · simp [ptr]
    · simp [ptr]
    · intro p hp
      cases hp
  · rfl

/-- `ngx_rbtree_insert` puts a new node between the neighbours that the insert function finds for it, and the
tree stays valid. -/
theorem ngxRbtreeInsert_valid {insert : Nat → RbTree → Nat → Nat → Option RbTree}
    (goesLeft : Nat → Nat → Bool) {fuel z : Nat}
    (hinsert : insert fuel t t.root z = rbtreeInsertBelow goesLeft fuel t t.root z) (h : t.Valid T)
    (hz : z ∉ T.toList) (hzs : z ≠ t.sentinel) (hfuel : T.toList.length < fuel) :
    ∃ t' T' l₁ l₂, ngxRbtreeInsert insert fuel t z = some t' ∧ t'.Valid T' ∧ T.toList = l₁ ++ l₂ ∧
      T'.toList = l₁ ++ z :: l₂ ∧ (∀ y, l₁.getLast? = some y → goesLeft z y = false) ∧
      (∀ y, l₂.head? = some y → goesLeft z y = true) ∧ t'.key = t.key ∧ t'.sentinel = t.sentinel := by
  have hroot : t.root = ptr t.sentinel T := h.rep.path
  have hempty := h.rep.ptr_eq_sentinel_iff
  rw [← hroot] at hempty
  cases T with
  | leaf =>
      rw [ngxRbtreeInsert, if_pos (hempty.mpr rfl)]
      exact ⟨_, _, [], [], rfl, rbtreeInsertFirst_valid h.rep hzs, rfl, rfl, by simp, by simp, rfl, rfl⟩
  | node red l x r =>
      have hstart : Between goesLeft z [] := ⟨by simp [before], by simp [after]⟩
      obtain ⟨t₁, path, hbelow, hrep, hplug, hbetween, hkey, hsent⟩ :=
        rbtreeInsertBelow_rep goesLeft fuel h.rep (by simpa using hz) hzs hstart (by omega)
      have hplug' : plug .leaf path = .node red l x r := hplug
      -- the new node fits the path by height
      obtain ⟨m, hm⟩ := h.height
      obtain ⟨n, hn, hpath, -⟩ := rb_plug.mp ⟨m, hplug' ▸ hm, hplug' ▸ h.black⟩
      obtain rfl : n = 0 := by cases hn; rfl
      have hnode : RB (BTree.branch .left true z .leaf .leaf) 0 := .red rfl rfl .leaf .leaf
      have hsplit : (BTree.node red l x r).toList = before path ++ after path := by
        rw [← hplug', toList_plug]
        rfl
      have hlen : path.length < fuel := by
        have hle := length_le_elems path
        have hperm := (perm_plug (.leaf : BTree Nat) path).length_eq
        rw [hplug'] at hperm
        simp only [BTree.toList, List.nil_append] at hperm hfuel
        omega
      obtain ⟨t₂, hfix, T', k, hrep', helems, hrb, hblack, hkey', hsent'⟩ :=
        rbtreeInsertFixup_fixed fuel .left hrep hnode hpath hlen
      refine ⟨t₂.setRed t₂.root false, T', before path, after path, ?_, ⟨hrep', ⟨k, hrb⟩, hblack⟩, hsplit, ?_,
        hbetween.1, hbetween.2, ?_, ?_⟩
      · have hstep : insert fuel t t.root z = some t₁ := by
          rw [hinsert, hroot]
          exact hbelow
        rw [ngxRbtreeInsert, if_neg fun hs => absurd (hempty.mp hs) (by simp)]
        simp only [hstep, hfix, Option.bind_eq_bind, Option.bind_some]
      · rw [helems, toList_plug]
        rfl
      · exact hkey'.trans hkey
      · exact hsent'.trans hsent

/-- A new element between neighbours it is ordered with. -/
theorem pairwise_insert {α : Type} {R : α → α → Prop} [IsTrans α R] {l₁ l₂ : List α} {z : α}
    (h : (l₁ ++ l₂).Pairwise R) (hlast : ∀ y, l₁.getLast? = some y → R y z)
    (hhead : ∀ y, l₂.head? = some y → R z y) : (l₁ ++ z :: l₂).Pairwise R := by
  rw [← List.isChain_iff_pairwise] at h ⊢
  obtain ⟨h₁, h₂, -⟩ := List.isChain_append.mp h
  apply List.isChain_append.mpr
  refine ⟨h₁, List.isChain_cons.mpr ⟨hhead, h₂⟩, ?_⟩
  intro y hy w hw
  obtain rfl : z = w := by simpa using hw
  exact hlast y hy

/-- An empty tree over whatever the memory held. -/
theorem valid_init (memory : RbTree) (sentinel : Nat) : (ngxRbtreeInit memory sentinel).Valid .leaf := by
  refine ⟨⟨List.nodup_nil, List.not_mem_nil, ?_, trivial, rfl⟩, ⟨0, .leaf⟩, rfl⟩
  simp [ngxRbtreeInit]

/-- The keys are no part of what makes a tree valid. -/
theorem RbTree.Valid.setKey (h : t.Valid T) (node key : Nat) : (t.setKey node key).Valid T := by
  have hsame : ∀ i, Same t (t.setKey node key) i := fun i => ⟨rfl, fun _ => rfl, rfl⟩
  have hrep := h.rep
  refine ⟨⟨hrep.nodup, hrep.sentinel, hrep.black, ?_, hrep.path⟩, h.height, h.black⟩
  exact hrep.links.congr rfl fun i _ => hsame i

end NginxDtls
