import NginxDtls.RbtreeInsert

/-! Deletion from a red-black tree. The node, or its successor in order, is taken out of the heap; where that
takes a black node from some paths the fixup loop moves the deficit up until it can be paid. The subtree
at which the deficit stands may be empty: the loop then follows the parent link of the sentinel. -/

namespace NginxDtls

open Zipper RbTree

variable {t : RbTree} {T : BTree Nat} {path : List (Frame Nat)}

/-- One black node is missing above `T`; a red root of `T` would pay for it. -/
structure DeleteState (t : RbTree) (T : BTree Nat) (path : List (Frame Nat)) (n : Nat) : Prop where
  rep : t.Rep T path
  leaf : T = .leaf → ∀ p, above path = some p → t.parent t.sentinel = p
  height : if T.isRed then RB T.blacken (n + 1) else RB T n
  path : RBPath path (n + 1)

theorem DeleteState.parent_eq {n : Nat} {f : Frame Nat} (h : DeleteState t T (f :: path) n) :
    t.parent (ptr t.sentinel T) = f.x := by
  cases T with
  | leaf => exact h.leaf rfl f.x rfl
  | node red l x r => exact Rep.parent_eq (d := .left) h.rep

/-- Rotations leave the parent link of the sentinel alone. -/
theorem rotate_parent_sentinel {d : Side} {x : Nat} (hx : x ≠ t.sentinel)
    (hy : t.child d.flip x ≠ t.sentinel) : (t.rotate d x).parent t.sentinel = t.parent t.sentinel := by
  unfold rotate
  extract_lets temp t₁ t₂ t₃ t₄ t₅
  have hp₂ : t₂.parent t.sentinel = t.parent t.sentinel := by
    simp only [t₂]
    split_ifs with hz
    · have hz' : t.sentinel ≠ t₁.child d temp := Ne.symm hz
      rw [setParent_parent, if_neg hz']
      rfl
    · rfl
  have hp₅ : t₅.parent = t₃.parent := by
    simp only [t₅, t₄, setChild_parent]
    split_ifs <;> rfl
  rw [setParent_parent, if_neg (Ne.symm hx), hp₅, setParent_parent, if_neg (Ne.symm hy), hp₂]

theorem RbTree.Rep.rotate_sentinel_parent {d : Side} {x y : Nat} {rx ry : Bool} {a b c : BTree Nat}
    (h : t.Rep (BTree.branch d rx x a (BTree.branch d ry y b c)) path) :
    (t.rotate d x).parent t.sentinel = t.parent t.sentinel := by
  apply rotate_parent_sentinel h.ne_sentinel
  rw [h.far_eq, ptr_branch]
  exact (rep_far.mp h).ne_sentinel

section Rounds

variable {d : Side} {n p w : Nat} {r : Bool} {wn wf : BTree Nat} {fs : List (Frame Nat)}

/-- A red sibling comes up; the new sibling is black. -/
theorem DeleteState.redSibling
    (h : DeleteState t T (⟨d, false, p, BTree.branch d true w wn wf⟩ :: fs) n) :
    DeleteState (((t.setRed w false).setRed p true).rotate d p) T
      (⟨d, true, p, wn⟩ :: ⟨d, false, w, wf⟩ :: fs) n := by
  have hp : t.Rep (BTree.branch d false p T (BTree.branch d true w wn wf)) fs := rep_cons.mp h.rep
  have hw : (t.setRed w false).Rep (BTree.branch d false p T (BTree.branch d false w wn wf)) fs :=
    rep_far.mpr ((rep_far.mp hp).setRed false)
  have hred := hw.setRed true
  refine ⟨rep_cons.mpr (rep_cons.mpr hred.rotate), ?_, h.height, ?_⟩
  · intro hT q hq
    have hs := hred.rotate_sentinel_parent
    rw [rotate_sentinel]
    exact hs.trans (h.leaf hT q hq)
  · cases h.path with
    | black bs bp =>
        obtain ⟨hwn, hwf, bwn, bwf⟩ := rb_branch_red.mp bs
        exact .red hwn rfl bwn (.black bwf bp)

/-- Both children of a black sibling are black: the sibling turns red, and the deficit moves up. -/
theorem DeleteState.moveUp (h : DeleteState t T (⟨d, r, p, BTree.branch d false w wn wf⟩ :: fs) n)
    (hT : T.isRed = false) (hwn : wn.isRed = false) (hwf : wf.isRed = false) :
    ∃ n', DeleteState (t.setRed w true) (BTree.branch d r p T (BTree.branch d true w wn wf)) fs n' := by
  have hp : t.Rep (BTree.branch d r p T (BTree.branch d false w wn wf)) fs := rep_cons.mp h.rep
  have hw : (t.setRed w true).Rep (BTree.branch d r p T (BTree.branch d true w wn wf)) fs :=
    rep_far.mpr ((rep_far.mp hp).setRed true)
  have hne : BTree.branch d r p T (BTree.branch d true w wn wf) ≠ .leaf := by cases d <;> simp [BTree.branch]
  have bT := h.height
  rw [if_neg (by simp [hT])] at bT
  cases h.path with
  | red hs hneed bs bp =>
      obtain ⟨m, hm, bwn, bwf⟩ := rb_branch_black.mp bs
      obtain rfl : n = m := by omega
      refine ⟨n, hw, fun hl => absurd hl hne, ?_, bp⟩
      rw [BTree.isRed_branch, if_pos rfl, BTree.blacken_branch]
      exact rb_branch_black.mpr ⟨n, rfl, bT, rb_branch_red.mpr ⟨hwn, hwf, bwn, bwf⟩⟩
  | black bs bp =>
      obtain ⟨m, hm, bwn, bwf⟩ := rb_branch_black.mp bs
      obtain rfl : n = m := by omega
      refine ⟨n + 1, hw, fun hl => absurd hl hne, ?_, bp⟩
      rw [BTree.isRed_branch, if_neg (by simp)]
      exact rb_branch_black.mpr ⟨n, rfl, bT, rb_branch_red.mpr ⟨hwn, hwf, bwn, bwf⟩⟩

/-- The inner child of the sibling is red and comes up. -/
theorem DeleteState.innerRed {v : Nat} {vn vf : BTree Nat}
    (h : DeleteState t T (⟨d, r, p, BTree.branch d false w (BTree.branch d true v vn vf) wf⟩ :: fs) n)
    (hwf : wf.isRed = false) :
    DeleteState (((t.setRed v false).setRed w true).rotate d.flip w) T
      (⟨d, r, p, BTree.branch d false v vn (BTree.branch d true w vf wf)⟩ :: fs) n := by
  have hp := rep_cons.mp h.rep
  have hw : t.Rep (BTree.branch d false w (BTree.branch d true v vn vf) wf) (⟨d.flip, r, p, T⟩ :: fs) :=
    rep_far.mp hp
  have hv : (t.setRed v false).Rep (BTree.branch d false w (BTree.branch d false v vn vf) wf)
      (⟨d.flip, r, p, T⟩ :: fs) := rep_cons.mp ((rep_cons.mpr hw : t.Rep _ (⟨d, false, w, wf⟩ :: _)).setRed false)
  have hred := hv.setRed true
  rw [← BTree.branch_flip, ← BTree.branch_flip d false v] at hred
  have hrot := hred.rotate
  rw [BTree.branch_flip, BTree.branch_flip] at hrot
  refine ⟨rep_cons.mpr (rep_far.mpr hrot), ?_, h.height, ?_⟩
  · intro hT q hq
    have hs := hred.rotate_sentinel_parent
    rw [rotate_sentinel]
    exact hs.trans (h.leaf hT q hq)
  · have hsib : ∀ {k}, RB (BTree.branch d false w (BTree.branch d true v vn vf) wf) k →
        RB (BTree.branch d false v vn (BTree.branch d true w vf wf)) k := by
      intro k bs
      obtain ⟨m, rfl, bv, bwf⟩ := rb_branch_black.mp bs
      obtain ⟨hvn, hvf, bvn, bvf⟩ := rb_branch_red.mp bv
      exact rb_branch_black.mpr ⟨m, rfl, bvn, rb_branch_red.mpr ⟨hvf, hwf, bvf, bwf⟩⟩
    cases h.path with
    | red hs hneed bs bp => exact .red (by simp) hneed (hsib bs) bp
    | black bs bp => exact .black (hsib bs) bp

/-- The outer child of the sibling is red: the deficit is paid. -/
theorem DeleteState.outerRed (h : DeleteState t T (⟨d, r, p, BTree.branch d false w wn wf⟩ :: fs) n)
    (hT : T.isRed = false) (hwf : wf.isRed = true) :
    ∃ n', DeleteState ((((t.setRed w r).setRed p false).setRed (ptr t.sentinel wf) false).rotate d p)
      (plug (BTree.branch d r w (BTree.branch d false p T wn) wf.blacken) fs) [] n' := by
  have hp : t.Rep (BTree.branch d r p T (BTree.branch d false w wn wf)) fs := rep_cons.mp h.rep
  have hw : (t.setRed w r).Rep (BTree.branch d r p T (BTree.branch d r w wn wf)) fs :=
    rep_far.mpr ((rep_far.mp hp).setRed r)
  have hpb := hw.setRed false
  have hf := (rep_far.mp (rep_far.mp hpb)).setBlack
  have hrot := (rep_far.mpr (rep_far.mpr hf)).rotate
  have bT := h.height
  rw [if_neg (by simp [hT])] at bT
  have hblack : wf.blacken.isRed = false := by cases wf <;> rfl
  obtain ⟨m, hm, hroot⟩ : ∃ m, RB (plug (BTree.branch d r w (BTree.branch d false p T wn) wf.blacken) fs) m ∧
      (plug (BTree.branch d r w (BTree.branch d false p T wn) wf.blacken) fs).isRed = false := by
    apply rb_plug.mpr
    have hparts : ∀ {k}, RB (BTree.branch d false w wn wf) k → k = n + 1 →
        RB (BTree.branch d false p T wn) k ∧ RB wf.blacken k := by
      rintro k bs rfl
      obtain ⟨m, hm, bwn, bwf⟩ := rb_branch_black.mp bs
      obtain rfl : n = m := by omega
      have bf := bwf.blacken
      rw [if_pos hwf] at bf
      exact ⟨rb_branch_black.mpr ⟨n, rfl, bT, bwn⟩, bf⟩
    cases h.path with
    | red hs hneed bs bp =>
        obtain ⟨bn, bf⟩ := hparts bs rfl
        exact ⟨n + 1, rb_branch_red.mpr ⟨by simp, hblack, bn, bf⟩, bp, fun hb => absurd hb (by simp [hneed])⟩
    | black bs bp =>
        obtain ⟨bn, bf⟩ := hparts bs rfl
        exact ⟨n + 2, rb_branch_black.mpr ⟨n + 1, rfl, bn, bf⟩, bp, fun _ => by simp⟩
  refine ⟨m, rep_plug.mp hrot, by simp [above], ?_, .nil⟩
  rw [if_neg (by simp [hroot])]
  exact hm

/-- The state behind a round: the path is shorter, or the loop is about to end. -/
def DeleteNext (r : RbTree × Nat) (elems : List Nat) (key : Nat → Nat) (sentinel len : Nat) : Prop :=
  ∃ T path n, DeleteState r.1 T path n ∧ r.2 = ptr r.1.sentinel T ∧
    (path.length < len ∨ path = [] ∨ T.isRed = true) ∧ (plug T path).toList = elems ∧ r.1.key = key ∧
    r.1.sentinel = sentinel

/-- The pointers that the second half reads. -/
theorem DeleteState.reads (h : DeleteState t T (⟨d, r, p, BTree.branch d false w wn wf⟩ :: fs) n) :
    t.parent (ptr t.sentinel T) = p ∧ t.red p = r ∧ t.child d.flip p = w ∧ t.child d w = ptr t.sentinel wn ∧
      t.child d.flip w = ptr t.sentinel wf ∧ t.red (ptr t.sentinel wn) = wn.isRed ∧
      t.red (ptr t.sentinel wf) = wf.isRed := by
  have hp : t.Rep (BTree.branch d r p T (BTree.branch d false w wn wf)) fs := rep_cons.mp h.rep
  have hw := rep_far.mp hp
  have hfar := hp.far_eq
  rw [ptr_branch] at hfar
  have hwn : t.Rep wn (⟨d, false, w, wf⟩ :: _) := rep_cons.mpr hw
  exact ⟨h.parent_eq, hp.red_eq, hfar, hw.near_eq, hw.far_eq, hwn.isRed_eq, (rep_far.mp hw).isRed_eq⟩

/-- The lines that pay the deficit. -/
theorem DeleteState.pay (h : DeleteState t T (⟨d, r, p, BTree.branch d false w wn wf⟩ :: fs) n)
    (hT : T.isRed = false) (hwf : wf.isRed = true) (len : Nat) :
    let t' := (((t.setRed w (t.red p)).setRed p false).setRed (t.child d.flip w) false).rotate d p
    DeleteNext (t', t'.root) (plug T (⟨d, r, p, BTree.branch d false w wn wf⟩ :: fs)).toList t.key t.sentinel
      len := by
  obtain ⟨-, hred, -, -, hfar, -, -⟩ := h.reads
  obtain ⟨n', hn'⟩ := h.outerRed hT hwf
  simp only [hred, hfar]
  refine ⟨_, [], n', hn', hn'.rep.path, .inr (.inl rfl), ?_, by simp, by simp⟩
  refine toList_plug_congr ?_ fs
  have hwf' := wf.toList_blacken
  cases d <;> simp [Frame.fill, BTree.branch, BTree.toList, hwf']

theorem rbtreeDeleteBlack_next (h : DeleteState t T (⟨d, r, p, BTree.branch d false w wn wf⟩ :: fs) n)
    (hT : T.isRed = false) {len : Nat} (hlen : r = true ∨ fs.length < len) :
    DeleteNext (rbtreeDeleteBlack d t (ptr t.sentinel T) w)
      (plug T (⟨d, r, p, BTree.branch d false w wn wf⟩ :: fs)).toList t.key t.sentinel len := by
  obtain ⟨hparent, hred, hsib, hnear, hfar, hrwn, hrwf⟩ := h.reads
  have hboth : (!t.red (t.child .left w) && !t.red (t.child .right w)) = (!wn.isRed && !wf.isRed) := by
    cases d with
    | left => rw [hnear, show t.child .right w = _ from hfar, hrwn, hrwf]
    | right => rw [hnear, show t.child .left w = _ from hfar, hrwn, hrwf, Bool.and_comm]
  rw [rbtreeDeleteBlack, hboth]
  by_cases hblack : (!wn.isRed && !wf.isRed) = true
  · rw [if_pos hblack]
    simp only [Bool.and_eq_true, Bool.not_eq_true'] at hblack
    obtain ⟨n', hn'⟩ := h.moveUp hT hblack.1 hblack.2
    refine ⟨_, fs, n', hn', ?_, ?_, ?_, rfl, rfl⟩
    · rw [hparent, ptr_branch]
    · rw [BTree.isRed_branch]
      rcases hlen with hr | hlen
      · exact .inr (.inr hr)
      · exact .inl hlen
    · refine toList_plug_congr ?_ fs
      cases d <;> simp [Frame.fill, BTree.branch, BTree.toList]
  · rw [if_neg hblack]
    by_cases hwf : wf.isRed = true
    · have hcond : ¬(!t.red (t.child d.flip w)) = true := by simp [hfar, hrwf, hwf]
      simp only [if_neg hcond, setRed_parent, setRed_child, hparent]
      exact h.pay hT hwf len
    · have hwf' : wf.isRed = false := by simpa using hwf
      have hwn : wn.isRed = true := by simpa [hwf'] using hblack
      have hcond : (!t.red (t.child d.flip w)) = true := by simp [hfar, hrwf, hwf']
      obtain ⟨red, v, vn, vf, rfl⟩ := BTree.eq_branch d (t := wn) (by rintro rfl; simp [BTree.isRed] at hwn)
      rw [BTree.isRed_branch] at hwn
      subst hwn
      have h' := h.innerRed hwf'
      obtain ⟨hparent', -, hsib', -⟩ := h'.reads
      rw [ptr_branch] at hnear
      simp only [if_pos hcond, hnear, setRed_parent, setRed_child]
      rw [rotate_sentinel, setRed_sentinel, setRed_sentinel] at hparent'
      simp only [hparent', hsib']
      have hpay := h'.pay hT (by simp) len
      simp only [rotate_key, setRed_key, rotate_sentinel, setRed_sentinel] at hpay
      have helems : (plug T (⟨d, r, p, BTree.branch d false v vn (BTree.branch d true w vf wf)⟩ :: fs)).toList =
          (plug T (⟨d, r, p, BTree.branch d false w (BTree.branch d true v vn vf) wf⟩ :: fs)).toList := by
        refine toList_plug_congr ?_ fs
        cases d <;> simp [Frame.fill, BTree.branch, BTree.toList]
      rw [helems] at hpay
      exact hpay

end Rounds

/-! ### The fixup loop -/

theorem rbtreeDeleteRound_next {n : Nat} {f : Frame Nat} (h : DeleteState t T (f :: path) n)
    (hT : T.isRed = false) :
    DeleteNext (rbtreeDeleteRound f.side t (ptr t.sentinel T)) (plug T (f :: path)).toList t.key t.sentinel
      (path.length + 1) := by
  obtain ⟨d, r, p, sib⟩ := f
  -- the sibling has black height and is a node
  have bsib : RB sib (n + 1) := by
    cases h.path with
    | red hs hneed bs bp => exact bs
    | black bs bp => exact bs
  obtain ⟨c, w, wn, wf, rfl⟩ := BTree.eq_branch d bsib.ne_leaf
  have hp : t.Rep (BTree.branch d r p T (BTree.branch d c w wn wf)) path := rep_cons.mp h.rep
  have hsib : t.child d.flip p = w := by
    have hfar := hp.far_eq
    rwa [ptr_branch] at hfar
  have hredw : t.red w = c := (rep_far.mp hp).red_eq
  rw [rbtreeDeleteRound, h.parent_eq]
  dsimp only
  rw [hsib, hredw]
  cases c with
  | true =>
      obtain rfl : r = false := by
        cases h.path with
        | red hs hneed bs bp => simp at hs
        | black bs bp => rfl
      have h' := h.redSibling
      obtain ⟨d', wr, w', wn', hwn⟩ : ∃ red x near far, wn = BTree.branch d red x near far := by
        obtain ⟨-, -, bwn, -⟩ := rb_branch_red.mp bsib
        exact BTree.eq_branch d bwn.ne_leaf
      subst hwn
      obtain rfl : d' = false := by
        obtain ⟨hwn, -⟩ := rb_branch_red.mp bsib
        rwa [BTree.isRed_branch] at hwn
      obtain ⟨hparent, -, hchild, -⟩ := h'.reads
      rw [rotate_sentinel, setRed_sentinel, setRed_sentinel] at hparent
      have hnext := rbtreeDeleteBlack_next h' hT (.inl rfl : _ ∨ _ < path.length + 1)
      rw [rotate_sentinel, setRed_sentinel, setRed_sentinel] at hnext
      simp only [rotate_key, setRed_key] at hnext
      simp only [if_pos, setRed_parent, h.parent_eq, hparent, hchild]
      have helems : (plug T (⟨d, true, p, BTree.branch d false wr w' wn'⟩ :: ⟨d, false, w, wf⟩ :: path)).toList =
          (plug T (⟨d, false, p, BTree.branch d true w (BTree.branch d false wr w' wn') wf⟩ :: path)).toList := by
        refine toList_plug_congr ?_ path
        cases d <;> simp [Frame.fill, BTree.branch, BTree.toList]
      rw [helems] at hnext
      exact hnext
  | false =>
      rw [if_neg (by simp)]
      exact rbtreeDeleteBlack_next h hT (.inr (Nat.lt_succ_self _))

/-- A valid tree with the given elements, keys and sentinel. -/
def DeleteFixed (t : RbTree) (elems : List Nat) (key : Nat → Nat) (sentinel : Nat) : Prop :=
  ∃ T, t.Valid T ∧ T.toList = elems ∧ t.key = key ∧ t.sentinel = sentinel

/-- At the root, or at a red node, the loop ends. -/
theorem rbtreeDeleteFixup_exit {n : Nat} (h : DeleteState t T path n) (hend : path = [] ∨ T.isRed = true)
    (fuel : Nat) :
    ∃ t', rbtreeDeleteFixup (fuel + 1) t (ptr t.sentinel T) = some t' ∧
      DeleteFixed t' (plug T path).toList t.key t.sentinel := by
  have hcond : ¬(ptr t.sentinel T ≠ t.root ∧ (!t.red (ptr t.sentinel T)) = true) := by
    rw [h.rep.isRed_eq]
    rcases hend with hnil | hred
    · exact fun hc => hc.1 (h.rep.ptr_eq_root_iff.mpr hnil)
    · simp [hred]
  have hblack : T.blacken.isRed = false := by cases T <;> rfl
  have hheight := h.height
  obtain ⟨m, hm, hroot⟩ : ∃ m, RB (plug T.blacken path) m ∧ (plug T.blacken path).isRed = false := by
    apply rb_plug.mpr
    by_cases hred : T.isRed = true
    · rw [if_pos hred] at hheight
      exact ⟨n + 1, hheight, h.path, fun _ => hblack⟩
    · rw [if_neg hred] at hheight
      have hb := hheight.blacken
      rw [if_neg hred] at hb
      obtain rfl : path = [] := hend.resolve_right hred
      exact ⟨n, hb, .nil, fun _ => hblack⟩
  refine ⟨t.setRed (ptr t.sentinel T) false, ?_, plug T.blacken path, ?_, ?_, rfl, rfl⟩
  · rw [rbtreeDeleteFixup, if_neg hcond]
  · exact ⟨rep_plug.mp h.rep.setBlack, ⟨m, hm⟩, hroot⟩
  · exact toList_plug_congr T.toList_blacken path

theorem rbtreeDeleteFixup_fixed (fuel : Nat) {n : Nat} (h : DeleteState t T path n)
    (hfuel : path.length + 1 < fuel) :
    ∃ t', rbtreeDeleteFixup fuel t (ptr t.sentinel T) = some t' ∧
      DeleteFixed t' (plug T path).toList t.key t.sentinel := by
  induction fuel generalizing t T path n with
  | zero => exact absurd hfuel (Nat.not_lt_zero _)
  | succ fuel ih =>
      by_cases hend : path = [] ∨ T.isRed = true
      · exact rbtreeDeleteFixup_exit h hend fuel
      · obtain ⟨hpath, hred⟩ := not_or.mp hend
        have hT : T.isRed = false := by simpa using hred
        cases path with
        | nil => exact absurd rfl hpath
        | cons f path =>
            have bsib : f.sib ≠ .leaf := by
              cases h.path with
              | red hs hneed bs bp => exact bs.ne_leaf
              | black bs bp => exact bs.ne_leaf
            have hside := h.rep.sideOf_eq h.parent_eq (.inr bsib) .left
            have hcond : ptr t.sentinel T ≠ t.root ∧ (!t.red (ptr t.sentinel T)) = true := by
              refine ⟨fun hroot => hpath (h.rep.ptr_eq_root_iff.mp hroot), ?_⟩
              rw [h.rep.isRed_eq, hT]
              rfl
            rw [rbtreeDeleteFixup, if_pos hcond, hside]
            obtain ⟨T', path', n', h', hptr, hdone, helems, hkey, hsent⟩ := rbtreeDeleteRound_next h hT
            set next := rbtreeDeleteRound f.side t (ptr t.sentinel T) with hnext
            rw [List.length_cons] at hfuel
            have hres : ∃ t', rbtreeDeleteFixup fuel next.1 next.2 = some t' ∧
                DeleteFixed t' (plug T' path').toList next.1.key next.1.sentinel := by
              rw [hptr]
              by_cases hend' : path' = [] ∨ T'.isRed = true
              · obtain ⟨k, rfl⟩ : ∃ k, fuel = k + 1 := ⟨fuel - 1, by omega⟩
                exact rbtreeDeleteFixup_exit h' hend' k
              · exact ih h' (by have := hdone.resolve_right hend'; omega)
            rwa [helems, hkey, hsent] at hres

/-! ### Taking a node out -/

theorem rep_append {path' : List (Frame Nat)} : t.Rep T (path ++ path') ↔ t.Rep (plug T path) path' := by
  induction path generalizing T with
  | nil => exact Iff.rfl
  | cons f path ih => exact rep_cons.trans ih

theorem before_append {α : Type} (path path' : List (Frame α)) :
    before (path ++ path') = before path' ++ before path := by
  induction path with
  | nil => simp [before]
  | cons f path ih => rw [List.cons_append, before, before, ih, List.append_assoc]

theorem after_append {α : Type} (path path' : List (Frame α)) :
    after (path ++ path') = after path ++ after path' := by
  induction path with
  | nil => simp [after]
  | cons f path ih => rw [List.cons_append, after, after, ih, List.append_assoc]

/-- The leftmost node of a subtree, with the way down to it. -/
theorem ngxRbtreeMin_eq (fuel : Nat) (h : t.Rep T path) (hT : T ≠ .leaf) (hfuel : T.toList.length ≤ fuel) :
    ∃ down red y r, ngxRbtreeMin fuel t (ptr t.sentinel T) = some y ∧
      T = plug (.node red .leaf y r) down ∧ before down = [] := by
  induction fuel generalizing T path with
  | zero =>
      cases T with
      | leaf => exact absurd rfl hT
      | node red l x r => simp [BTree.toList] at hfuel
  | succ fuel ih =>
      cases T with
      | leaf => exact absurd rfl hT
      | node red l x r =>
          have hleft : t.child .left x = ptr t.sentinel l := h.links.2.1
          have hdown : t.Rep l (⟨.left, red, x, r⟩ :: path) := rep_cons.mpr h
          rw [ptr, ngxRbtreeMin, hleft]
          by_cases hl : l = .leaf
          · subst hl
            exact ⟨[], red, x, r, if_neg (not_not.mpr rfl), rfl, rfl⟩
          · have hne : ptr t.sentinel l ≠ t.sentinel := fun hs => hl (hdown.ptr_eq_sentinel_iff.mp hs)
            rw [if_pos hne]
            simp only [BTree.toList, List.length_append, List.length_cons] at hfuel
            obtain ⟨down, red', y, r', hmin, heq, hbefore⟩ := ih hdown hl (by omega)
            refine ⟨down ++ [⟨.left, red, x, r⟩], red', y, r', hmin, ?_, ?_⟩
            · rw [plug_append, ← heq]
              rfl
            · rw [before_append, hbefore]
              rfl

/-- A pointer to a subtree is none of the nodes around it. -/
theorem RbTree.Rep.ptr_notMem (h : t.Rep T path) :
    ptr t.sentinel T ∉ path.flatMap Frame.elems := by
  intro hm
  by_cases hs : ptr t.sentinel T = t.sentinel
  · exact h.sentinel (List.mem_append_right _ (hs ▸ hm))
  · exact List.disjoint_of_nodup_append h.nodup (mem_of_ptr hs) hm

/-- The innermost node of a path is none of the others. -/
theorem RbTree.Rep.head_notMem {f : Frame Nat} (h : t.Rep T (f :: path)) :
    f.x ∉ f.sib.toList ++ path.flatMap Frame.elems := by
  have hnodup := (List.nodup_append.mp h.nodup).2.1
  rw [List.flatMap_cons, Frame.elems, List.cons_append, List.nodup_cons] at hnodup
  exact hnodup.1

/-- The links behind the unlinking of a node with one empty side: the other side `R` takes its place and may
get any parent `q`. -/
theorem RbTree.Rep.unlink {d : Side} {red : Bool} {y : Nat} {R : BTree Nat} {f : Frame Nat}
    (h : t.Rep (BTree.branch d red y .leaf R) (f :: path)) (q : Nat) :
    let t' := (t.setChild f.side f.x (ptr t.sentinel R)).setParent (ptr t.sentinel R) q
    t'.Links (some q) R ∧ t'.PathLinks (ptr t.sentinel R) (f :: path) := by
  have hR : t.Rep R (⟨d.flip, red, y, .leaf⟩ :: f :: path) := rep_far.mp h
  have hout := hR.ptr_notMem
  have hdisj := List.disjoint_of_nodup_append hR.nodup
  rw [List.flatMap_cons, List.mem_append, not_or] at hout
  rw [List.flatMap_cons] at hdisj
  have hfx : f.x ∈ (f :: path).flatMap Frame.elems := by simp [Frame.elems]
  have hfR : ∀ i ∈ R.toList, i ≠ f.x := fun i hi heq =>
    hdisj hi (List.mem_append_right _ (heq ▸ hfx))
  constructor
  · apply hR.links.reparent
    · rfl
    · exact (List.nodup_append.mp hR.nodup).1
    · intro i hi hne
      exact ⟨rfl, fun e => by simp [hfR i hi], by simp [hne]⟩
    · intro hleaf
      have hs : ptr t.sentinel R ≠ t.sentinel := fun hs => hleaf (hR.ptr_eq_sentinel_iff.mp hs)
      have hne := hfR _ (mem_of_ptr hs)
      exact ⟨rfl, fun e => by simp [hne], by simp⟩
  · apply h.path.rehole
    · rfl
    · rfl
    · rfl
    · simp
    · simp [f.side.flip_ne]
    · have hne : f.x ≠ ptr t.sentinel R := fun heq => hout.2 (heq ▸ hfx)
      simp [hne]
    · intro i hi
      have hif : i ≠ f.x := fun heq => h.head_notMem (heq ▸ hi)
      have hiR : i ≠ ptr t.sentinel R := by
        rintro rfl
        apply hout.2
        rw [List.flatMap_cons, Frame.elems, List.cons_append]
        exact List.mem_cons_of_mem _ hi
      exact ⟨rfl, fun e => by simp [hif], by simp [hiR]⟩

/-- The links behind `rbtreeTakePlace`. -/
theorem takePlace_links {z y : Nat} (hyz : y ≠ z) (hpy : z ≠ t.root → t.parent z ≠ y) :
    (rbtreeTakePlace t z y).root = (if z = t.root then y else t.root) ∧
      (rbtreeTakePlace t z y).sentinel = t.sentinel ∧ (rbtreeTakePlace t z y).key = t.key ∧
      (∀ m, (rbtreeTakePlace t z y).red m = if m = y then t.red z else t.red m) ∧
      (∀ e m, (rbtreeTakePlace t z y).child e m =
        if z ≠ t.root ∧ e = t.sideOf .left z ∧ m = t.parent z then y
        else if m = y then t.child e z else t.child e m) ∧
      ∀ m, (rbtreeTakePlace t z y).parent m =
        if t.child .right z ≠ t.sentinel ∧ m = t.child .right z then y
        else if t.child .left z ≠ t.sentinel ∧ m = t.child .left z then y
        else if m = y then t.parent z else t.parent m := by
  unfold rbtreeTakePlace
  extract_lets t₁ t₂ t₃ t₄ t₅ t₆
  have hc₄ : ∀ e m, t₄.child e m = if m = y then t.child e z else t.child e m := by
    intro e m
    simp only [t₄, t₃, t₂, t₁, setRed_child, setParent_child, setChild_child, Ne.symm hyz, and_false, if_false]
    cases e <;> simp
  have hp₄ : ∀ m, t₄.parent m = if m = y then t.parent z else t.parent m := by
    intro m
    simp only [t₄, t₃, setRed_parent, setParent_parent]
    rfl
  have hr₄ : t₄.root = t.root := rfl
  have hside : z ≠ t.root → t₄.sideOf .left z = t.sideOf .left z := by
    intro hroot
    simp only [sideOf, hp₄, Ne.symm hyz, if_false, hc₄, hpy hroot]
  have hp₅ : t₅.parent = t₄.parent := by
    simp only [t₅]
    split_ifs <;> rfl
  have hc₅ : ∀ e m, t₅.child e m = if z ≠ t.root ∧ e = t.sideOf .left z ∧ m = t.parent z then y
        else if m = y then t.child e z else t.child e m := by
    intro e m
    simp only [t₅, hr₄]
    by_cases hroot : z = t.root
    · rw [if_pos hroot, if_neg fun h => h.1 hroot]
      exact hc₄ e m
    · rw [if_neg hroot, setChild_child, hside hroot, hp₄, if_neg (Ne.symm hyz), hc₄]
      simp only [ne_eq, hroot, not_false_eq_true, true_and]
  have hc₅y : ∀ e, t₅.child e y = t.child e z := by
    intro e
    rw [hc₅, if_neg fun h => hpy h.1 h.2.2.symm, if_pos rfl]
  have hs₅ : t₅.sentinel = t.sentinel := by
    simp only [t₅]
    split_ifs <;> rfl
  have hc₆ : t₆.child = t₅.child := by
    simp only [t₆]
    split_ifs <;> rfl
  have hs₆ : t₆.sentinel = t.sentinel := by
    simp only [t₆]
    split_ifs <;> exact hs₅
  have hp₆ : ∀ m, t₆.parent m = if t.child .left z ≠ t.sentinel ∧ m = t.child .left z then y
      else if m = y then t.parent z else t.parent m := by
    intro m
    simp only [t₆, hc₅y, hs₅]
    by_cases hl : t.child .left z = t.sentinel
    · rw [if_neg (not_not.mpr hl), if_neg fun h => h.1 hl, hp₅, hp₄]
    · rw [if_pos hl, setParent_parent, hp₅, hp₄]
      simp only [ne_eq, hl, not_false_eq_true, true_and]
  have hred : ∀ {u : RbTree} {P : Prop} [Decidable P] {i v : Nat},
      (if P then u.setParent i v else u).red = u.red := by
    intro u P _ i v
    split_ifs <;> rfl
  have hr₅ : t₅.red = t₄.red := by
    simp only [t₅]
    split_ifs <;> rfl
  refine ⟨?_, ?_, ?_, ?_, ?_, ?_⟩
  · have hroot : t₆.root = if z = t.root then y else t.root := by
      simp only [t₆, t₅, hr₄]
      split_ifs <;> rfl
    split_ifs at hroot ⊢ <;> exact hroot
  · split_ifs <;> exact hs₆
  · have hkey : t₆.key = t.key := by
      simp only [t₆, t₅]
      split_ifs <;> rfl
    split_ifs <;> exact hkey
  · intro m
    rw [hred, hred, hr₅]
    simp only [t₄, setRed_red]
    rfl
  · intro e m
    rw [← hc₅, ← hc₆]
    split_ifs <;> rfl
  · intro m
    rw [hc₆, hc₅y, hs₆]
    by_cases hr : t.child .right z = t.sentinel
    · rw [if_neg (not_not.mpr hr), if_neg fun h => h.1 hr, hp₆]
    · rw [if_pos hr, setParent_parent, hp₆]
      simp only [ne_eq, hr, not_false_eq_true, true_and]

/-- A node takes the place of another one whose right subtree may hang on any parent. -/
theorem rbtreeTakePlace_rep {c : Bool} {z y q : Nat} {l R : BTree Nat}
    (hnodup : (R.toList ++ (⟨.right, c, z, l⟩ :: path : List (Frame Nat)).flatMap Frame.elems).Nodup)
    (hsent : t.sentinel ∉ R.toList ++ (⟨.right, c, z, l⟩ :: path : List (Frame Nat)).flatMap Frame.elems)
    (hblack : t.red t.sentinel = false) (hR : t.Links (some q) R)
    (hpath : t.PathLinks (ptr t.sentinel R) (⟨.right, c, z, l⟩ :: path))
    (hy : y ∉ R.toList ++ (⟨.right, c, z, l⟩ :: path : List (Frame Nat)).flatMap Frame.elems)
    (hys : y ≠ t.sentinel) :
    (rbtreeTakePlace t z y).Rep R (⟨.right, c, y, l⟩ :: path) ∧
      (rbtreeTakePlace t z y).parent t.sentinel = t.parent t.sentinel ∧
      (rbtreeTakePlace t z y).key = t.key ∧ (rbtreeTakePlace t z y).sentinel = t.sentinel := by
  obtain ⟨hredz, hright, hleft, hparz, hl, hup⟩ := hpath
  have hright' : t.child .right z = ptr t.sentinel R := hright
  have hleft' : t.child .left z = ptr t.sentinel l := hleft
  simp only [List.flatMap_cons, Frame.elems, List.cons_append, List.mem_append, List.mem_cons, not_or,
    List.nodup_append, List.nodup_cons, ne_eq] at hnodup hsent hy
  obtain ⟨nR, ⟨⟨zl, zP⟩, nl, nP, dlP⟩, dR⟩ := hnodup
  obtain ⟨sR, sz, sl, sP⟩ := hsent
  obtain ⟨yR, yz, yl, yP⟩ := hy
  have hRs : ptr t.sentinel R ≠ t.sentinel → ptr t.sentinel R ∈ R.toList := mem_of_ptr
  have hls : ptr t.sentinel l ≠ t.sentinel → ptr t.sentinel l ∈ l.toList := mem_of_ptr
  have hRy : ptr t.sentinel R ≠ t.sentinel → y ≠ ptr t.sentinel R := fun hs heq => yR (heq ▸ hRs hs)
  have hly : ptr t.sentinel l ≠ t.sentinel → y ≠ ptr t.sentinel l := fun hs heq => yl (heq ▸ hls hs)
  have hparP : z ≠ t.root → t.parent z ∈ path.flatMap Frame.elems := by
    intro hroot
    cases path with
    | nil => exact absurd hup.symm hroot
    | cons f path =>
        rw [hparz f.x rfl]
        simp [Frame.elems]
  obtain ⟨rroot, rsent, rkey, rred, rchild, rparent⟩ :=
    takePlace_links yz (fun hroot heq => yP (heq ▸ hparP hroot))
  rw [hright', hleft'] at rparent
  have hne : ∀ i, i ∉ path.flatMap Frame.elems → z ≠ t.root → i ≠ t.parent z := fun i hi hroot heq =>
    hi (heq ▸ hparP hroot)
  have hsame : ∀ i, i ≠ y → (ptr t.sentinel R ≠ t.sentinel → i ≠ ptr t.sentinel R) →
      (ptr t.sentinel l ≠ t.sentinel → i ≠ ptr t.sentinel l) → (z ≠ t.root → i ≠ t.parent z) →
      Same t (rbtreeTakePlace t z y) i := by
    intro i hiy hiR hil hip
    refine ⟨by rw [rred, if_neg hiy], fun e => ?_, ?_⟩
    · rw [rchild, if_neg fun hc => hip hc.1 hc.2.2, if_neg hiy]
    · rw [rparent, if_neg fun hc => hiR hc.1 hc.2, if_neg fun hc => hil hc.1 hc.2, if_neg hiy]
  have hlR : ∀ i ∈ l.toList, i ∉ R.toList := fun i hi hiR => dR i hiR i (.inr (.inl hi)) rfl
  have hPR : ∀ i ∈ path.flatMap Frame.elems, i ∉ R.toList := fun i hi hiR => dR i hiR i (.inr (.inr hi)) rfl
  have hPl : ∀ i ∈ path.flatMap Frame.elems, i ∉ l.toList := fun i hi hil => dlP i hil i hi rfl
  refine ⟨⟨?_, ?_, ?_, ?_, ?_⟩, ?_, rkey, rsent⟩
  · simp only [List.flatMap_cons, Frame.elems, List.cons_append, List.mem_append, List.mem_cons, not_or,
      List.nodup_append, List.nodup_cons]
    refine ⟨nR, ⟨⟨yl, yP⟩, nl, nP, dlP⟩, ?_⟩
    rintro i hi j (rfl | hj) rfl
    · exact yR hi
    · exact dR i hi i (.inr hj) rfl
  · rw [rsent]
    simp only [List.flatMap_cons, Frame.elems, List.cons_append, List.mem_append, List.mem_cons, not_or]
    exact ⟨sR, Ne.symm hys, sl, sP⟩
  · rw [rsent, rred, if_neg (Ne.symm hys), hblack]
  · apply hR.reparent rsent nR
    · intro i hi hiR
      exact hsame i (fun heq => yR (heq ▸ hi)) (fun _ => hiR) (fun hs heq => hlR _ (hls hs) (heq ▸ hi))
        (hne i fun hiP => hPR i hiP hi)
    · intro hleaf
      have hs : ptr t.sentinel R ≠ t.sentinel := by
        intro hs
        cases R with
        | leaf => exact hleaf rfl
        | node red a x b => exact sR (by rw [← hs]; simp [ptr, BTree.toList])
      refine ⟨?_, fun e => ?_, ?_⟩
      · rw [rred, if_neg (Ne.symm (hRy hs))]
      · rw [rchild, if_neg fun hc => hne _ (fun hiP => hPR _ hiP (hRs hs)) hc.1 hc.2.2,
          if_neg (Ne.symm (hRy hs))]
      · rw [rparent, if_pos ⟨hs, rfl⟩]
  · rw [rsent]
    refine ⟨?_, ?_, ?_, ?_, ?_, ?_⟩
    · rw [rred, if_pos rfl, hredz]
    · rw [rchild, if_neg fun hc => hne y yP hc.1 hc.2.2, if_pos rfl, hright']
    · rw [rchild, if_neg fun hc => hne y yP hc.1 hc.2.2, if_pos rfl, rsent]
      exact hleft'
    · intro p hp
      rw [rparent, if_neg fun hc => hRy hc.1 hc.2, if_neg fun hc => hly hc.1 hc.2, if_pos rfl, hparz p hp]
    · apply hl.reparent rsent nl
      · intro i hi hil
        exact hsame i (fun heq => yl (heq ▸ hi)) (fun hs heq => hlR i hi (heq ▸ hRs hs)) (fun _ => hil)
          (hne i fun hiP => hPl i hiP hi)
      · intro hleaf
        have hs : ptr t.sentinel l ≠ t.sentinel := by
          intro hs
          cases l with
          | leaf => exact hleaf rfl
          | node red a x b => exact sl (by rw [← hs]; simp [ptr, BTree.toList])
        have hlRp : ptr t.sentinel R ≠ t.sentinel → ptr t.sentinel l ≠ ptr t.sentinel R := fun hs' heq =>
          hlR _ (hls hs) (heq ▸ hRs hs')
        refine ⟨?_, fun e => ?_, ?_⟩
        · rw [rred, if_neg (Ne.symm (hly hs))]
        · rw [rchild, if_neg fun hc => hne _ (fun hiP => hPl _ hiP (hls hs)) hc.1 hc.2.2,
            if_neg (Ne.symm (hly hs))]
        · rw [rparent, if_neg fun hc => hlRp hc.1 hc.2, if_pos ⟨hs, rfl⟩]
    · have hPsame : ∀ i ∈ path.flatMap Frame.elems, (z ≠ t.root → i ≠ t.parent z) →
          Same t (rbtreeTakePlace t z y) i := fun i hi hip =>
        hsame i (fun heq => yP (heq ▸ hi)) (fun hs heq => hPR i hi (heq ▸ hRs hs))
          (fun hs heq => hPl i hi (heq ▸ hls hs)) hip
      cases path with
      | nil =>
          have hz : z = t.root := hup.symm
          exact rroot.trans (if_pos hz)
      | cons f path =>
          have hfP : f.x ∈ (f :: path).flatMap Frame.elems := by simp [Frame.elems]
          have hz : z ≠ t.root := fun hz => zP (hz ▸ hup.root_mem)
          have hpar : t.parent z = f.x := hparz f.x rfl
          have hside : t.sideOf .left z = f.side := by
            obtain ⟨-, hhole, hsib, -, -, -⟩ := hup
            have hdiff : z ≠ ptr t.sentinel f.sib := by
              intro heq
              by_cases hs : ptr t.sentinel f.sib = t.sentinel
              · exact sz (hs ▸ heq).symm
              · have hmem : ptr t.sentinel f.sib ∈ f.sib.toList := mem_of_ptr hs
                apply zP
                rw [heq, List.flatMap_cons, Frame.elems, List.cons_append]
                exact List.mem_cons_of_mem _ (List.mem_append_left _ hmem)
            unfold sideOf
            rw [hpar]
            rcases Side.eq_or_flip f.side .left with hd | hd
            · rw [hd, hhole, if_pos rfl]
            · rw [hd, hsib, if_neg hdiff, Side.flip_flip]
          rw [List.flatMap_cons, Frame.elems, List.cons_append, List.nodup_cons] at nP
          have hfy : f.x ≠ y := fun heq => yP (heq ▸ hfP)
          apply hup.rehole rsent (rroot.trans (if_neg hz))
          · rw [rred, if_neg hfy]
          · rw [rchild, if_pos ⟨hz, hside.symm, hpar.symm⟩]
          · rw [rchild, if_neg fun hc => f.side.flip_ne (hc.2.1.trans hside), if_neg hfy]
          · have hfR : ptr t.sentinel R ≠ t.sentinel → f.x ≠ ptr t.sentinel R := fun hs heq =>
              hPR f.x hfP (heq ▸ hRs hs)
            have hfl : ptr t.sentinel l ≠ t.sentinel → f.x ≠ ptr t.sentinel l := fun hs heq =>
              hPl f.x hfP (heq ▸ hls hs)
            rw [rparent, if_neg fun hc => hfR hc.1 hc.2, if_neg fun hc => hfl hc.1 hc.2, if_neg hfy]
          · intro i hi
            have hiP : i ∈ (f :: path).flatMap Frame.elems := by
              rw [List.flatMap_cons, Frame.elems, List.cons_append]
              exact List.mem_cons_of_mem _ hi
            exact hPsame i hiP fun _ heq => nP.1 (by rw [← hpar, ← heq]; exact hi)
  · rw [rparent, if_neg fun hc => hc.1 hc.2.symm, if_neg fun hc => hc.1 hc.2.symm, if_neg (Ne.symm hys)]

/-! ### The whole deletion -/

theorem RbTree.Rep.clear {z : Nat} (h : t.Rep T path) (hz : z ∉ T.toList ++ path.flatMap Frame.elems) :
    (rbtreeClear t z).Rep T path := by
  have hsame : ∀ i ∈ T.toList ++ path.flatMap Frame.elems, Same t (rbtreeClear t z) i := by
    intro i hi
    have hiz : i ≠ z := fun heq => hz (heq ▸ hi)
    exact ⟨rfl, fun e => by simp [rbtreeClear, hiz], by simp [rbtreeClear, hiz]⟩
  refine ⟨h.nodup, h.sentinel, h.black, ?_, ?_⟩
  · exact h.links.congr rfl fun i hi => hsame i (List.mem_append_left _ hi)
  · exact h.path.congr rfl rfl fun i hi => hsame i (List.mem_append_right _ hi)

/-- The result of a deletion. -/
def Deleted (t : RbTree) (z : Nat) (elems : List Nat) (t' : RbTree) : Prop :=
  ∃ T, t'.Valid T ∧ T.toList = elems ∧ (∀ i, i ≠ z → t'.key i = t.key i) ∧ t'.sentinel = t.sentinel

/-- The end of a deletion: what a black node left behind is repaired. -/
theorem rbtreeDelete_finish {z : Nat} {cy : Bool} {R : BTree Nat} {path' : List (Frame Nat)} (fuel : Nat)
    (h : t.Rep R path') (hleaf : R = .leaf → ∀ p, above path' = some p → t.parent t.sentinel = p)
    (hz : z ∉ R.toList ++ path'.flatMap Frame.elems) (hzs : z ≠ t.sentinel) (hR : RB R 0)
    (hpath : RBPath path' (if cy then 0 else 1)) (hred : cy = true → R.isRed = false)
    (hfuel : path'.length + 1 < fuel) :
    ∃ t', (if cy then some (rbtreeClear t z)
        else rbtreeDeleteFixup fuel (rbtreeClear t z) (ptr t.sentinel R)) = some t' ∧
      Deleted t z (plug R path').toList t' := by
  have hclear := h.clear hz
  have hkey : ∀ i, i ≠ z → (rbtreeClear t z).key i = t.key i := fun i hi => by simp [rbtreeClear, hi]
  cases cy with
  | true =>
      obtain ⟨m, hm, hroot⟩ := rb_plug.mpr ⟨0, hR, hpath, fun _ => hred rfl⟩
      exact ⟨_, if_pos rfl, _, ⟨rep_plug.mp hclear, ⟨m, hm⟩, hroot⟩, rfl, hkey, rfl⟩
  | false =>
      have hstate : DeleteState (rbtreeClear t z) R path' 0 := by
        refine ⟨hclear, ?_, ?_, hpath⟩
        · intro hl p hp
          have hsent : (rbtreeClear t z).parent t.sentinel = t.parent t.sentinel := by
            simp [rbtreeClear, Ne.symm hzs]
          exact hsent.trans (hleaf hl p hp)
        · have hb := hR.blacken
          split_ifs at hb ⊢
          · exact hb
          · exact hR
      obtain ⟨t', hfix, T', hvalid, helems, hkey', hsent'⟩ := rbtreeDeleteFixup_fixed fuel hstate hfuel
      refine ⟨t', hfix, T', hvalid, helems, fun i hi => ?_, hsent'⟩
      rw [hkey', hkey i hi]

/-- Every element is the root of a subtree. -/
theorem exists_plug {z : Nat} (hz : z ∈ T.toList) : ∃ c l r path, T = plug (.node c l z r) path := by
  induction T with
  | leaf => exact absurd hz List.not_mem_nil
  | node c l x r ihl ihr =>
      simp only [BTree.toList, List.mem_append, List.mem_cons] at hz
      rcases hz with hl | rfl | hr
      · obtain ⟨c', l', r', path, rfl⟩ := ihl hl
        exact ⟨c', l', r', path ++ [⟨.left, c, x, r⟩], by rw [plug_append]; rfl⟩
      · exact ⟨c, l, r, [], rfl⟩
      · obtain ⟨c', l', r', path, rfl⟩ := ihr hr
        exact ⟨c', l', r', path ++ [⟨.right, c, x, l⟩], by rw [plug_append]; rfl⟩

theorem RbTree.Links.top {par : Option Nat} (h : t.Links par T) : t.Links none T := by
  cases T with
  | leaf => trivial
  | node red l x r =>
      obtain ⟨hred, hleft, hright, -, hl, hr⟩ := h
      exact ⟨hred, hleft, hright, by simp, hl, hr⟩

/-- A node with an empty side leaves its place to the other side. -/
theorem ngxRbtreeDelete_one {d : Side} {c : Bool} {z : Nat} {R : BTree Nat} {fuel : Nat}
    (hsubst : rbtreeSubst fuel t z = some (z, ptr t.sentinel R))
    (h : t.Valid (plug (BTree.branch d c z .leaf R) path))
    (hfuel : (plug (BTree.branch d c z .leaf R) path).toList.length + 1 < fuel) :
    ∃ t', ngxRbtreeDelete fuel t z = some t' ∧ Deleted t z (plug R path).toList t' := by
  have hrep : t.Rep (BTree.branch d c z .leaf R) path := rep_plug.mpr h.rep
  have hR := rep_far.mp hrep
  have hzs : z ≠ t.sentinel := hrep.ne_sentinel
  obtain ⟨m, hm⟩ := h.height
  obtain ⟨k, hk, hpath, hneed⟩ := rb_plug.mp ⟨m, hm, h.black⟩
  -- the colours around an empty side
  obtain ⟨bR, hred, hheight⟩ : RB R 0 ∧ (c = true → R.isRed = false) ∧ k = if c then 0 else 1 := by
    cases c with
    | true =>
        obtain ⟨-, hRb, bl, bR⟩ := rb_branch_red.mp hk
        cases bl
        exact ⟨bR, fun _ => hRb, rfl⟩
    | false =>
        obtain ⟨m', rfl, bl, bR⟩ := rb_branch_black.mp hk
        cases bl
        exact ⟨bR, by simp, rfl⟩
  subst hheight
  have hroot := hrep.ptr_eq_root_iff
  rw [ptr_branch] at hroot
  rw [ngxRbtreeDelete, hsubst]
  simp only [Option.bind_eq_bind, Option.bind_some]
  cases path with
  | nil =>
      rw [if_pos (hroot.mpr rfl)]
      have htop : (t.setRoot (ptr t.sentinel R)).Rep R [] := by
        refine ⟨?_, ?_, h.rep.black, ?_, rfl⟩
        · simpa using (List.nodup_append.mp hR.nodup).1
        · intro hm
          exact hR.sentinel (List.mem_append_left _ (by simpa using hm))
        · exact hR.links.top.congr rfl fun i _ => ⟨rfl, fun _ => rfl, rfl⟩
      have hz : z ∉ R.blacken.toList ++ ([] : List (Frame Nat)).flatMap Frame.elems := by
        intro hm
        apply List.disjoint_of_nodup_append hR.nodup (a := z) (by simpa using hm)
        simp [Frame.elems]
      refine ⟨_, rfl, R.blacken, ⟨htop.setBlack.clear hz, ⟨_, bR.blacken⟩, ?_⟩, ?_, ?_, rfl⟩
      · cases R <;> rfl
      · exact R.toList_blacken
      · intro i hi
        simp [rbtreeClear, hi]
  | cons f path =>
      rw [if_neg fun heq => List.cons_ne_nil f path (hroot.mp heq)]
      have hparent : t.parent z = f.x := hrep.parent_eq
      have hside : t.sideOf .left z = f.side := by
        have hs := hrep.sideOf_eq (by rw [ptr_branch, hparent]) (.inl (by cases d <;> simp [BTree.branch])) .left
        rwa [ptr_branch] at hs
      have hredz : t.red z = c := hrep.red_eq
      obtain ⟨hlinks, hlinks'⟩ := hrep.unlink f.x
      have hsub : List.Sublist (R.toList ++ (f :: path).flatMap Frame.elems)
          (R.toList ++ (⟨d.flip, c, z, .leaf⟩ :: f :: path : List (Frame Nat)).flatMap Frame.elems) :=
        (List.sublist_append_right [z] _).append_left _
      have hrep' : ((t.setChild f.side f.x (ptr t.sentinel R)).setParent (ptr t.sentinel R) f.x).Rep R (f :: path) :=
        ⟨hR.nodup.sublist hsub, fun hm => hR.sentinel (hsub.subset hm), hR.black, hlinks, hlinks'⟩
      have hz : z ∉ R.toList ++ (f :: path).flatMap Frame.elems := by
        have hnodup := hR.nodup
        rw [List.flatMap_cons] at hnodup
        have hperm := (List.perm_middle : (R.toList ++ z :: (f :: path).flatMap Frame.elems).Perm _).nodup_iff
        exact (List.nodup_cons.mp (hperm.mp hnodup)).1
      have hlen : (f :: path).length + 1 < fuel := by
        have hle := length_le_elems (f :: path)
        have hperm := (perm_plug (BTree.branch d c z .leaf R) (f :: path)).length_eq
        rw [List.length_append] at hperm
        omega
      have hleaf : R = .leaf → ∀ p, above (f :: path) = some p →
          ((t.setChild f.side f.x (ptr t.sentinel R)).setParent (ptr t.sentinel R) f.x).parent t.sentinel = p := by
        rintro rfl p hp
        rw [← Option.some.inj hp]
        simp [ptr]
      obtain ⟨t', hfin, hdel⟩ := rbtreeDelete_finish fuel hrep' hleaf hz hzs bR hpath hred hlen
      refine ⟨t', ?_, hdel⟩
      simp only [hparent, hside, hredz, if_true, setChild_parent]
      exact hfin

/-- The discipline of the colours does not see the names of the nodes. -/
theorem rbPath_rename {d : Side} {c : Bool} {z y : Nat} {l : BTree Nat} {down : List (Frame Nat)} {n : Nat}
    (h : RBPath (down ++ ⟨d, c, z, l⟩ :: path) n) : RBPath (down ++ ⟨d, c, y, l⟩ :: path) n := by
  induction down generalizing n with
  | nil =>
      cases h with
      | red hs hneed bs bp => exact .red hs hneed bs bp
      | black bs bp => exact .black bs bp
  | cons f down ih =>
      cases h with
      | red hs hneed bs bp =>
          refine .red hs ?_ bs (ih bp)
          cases down <;> exact hneed
      | black bs bp => exact .black bs (ih bp)

/-- The successor `y` leaves its place to its right side `R` and takes that of `z`. The place of `y` is below
the right link of `z`, directly or not. -/
theorem rbtreeReplace_rep {c cy : Bool} {z y : Nat} {l R : BTree Nat} {down : List (Frame Nat)}
    (h : t.Rep (.node cy .leaf y R) (down ++ ⟨.right, c, z, l⟩ :: path)) :
    let t₁ := t.setChild (t.sideOf .left y) (t.parent y) (ptr t.sentinel R)
    let t₂ := rbtreeReplace t₁ z y (ptr t.sentinel R)
    t₂.Rep R (down ++ ⟨.right, c, y, l⟩ :: path) ∧
      (R = .leaf → ∀ p, above (down ++ ⟨.right, c, y, l⟩ :: path) = some p → t₂.parent t.sentinel = p) ∧
      t₂.key = t.key ∧ t₂.sentinel = t.sentinel := by
  have hbranch : t.Rep (BTree.branch .left cy y .leaf R) (down ++ ⟨.right, c, z, l⟩ :: path) := h
  have hys : y ≠ t.sentinel := hbranch.ne_sentinel
  have hyout : y ∉ R.toList ++ (down ++ ⟨.right, c, z, l⟩ :: path).flatMap Frame.elems :=
    (List.nodup_cons.mp h.nodup).1
  have hnodup : (R.toList ++ (down ++ ⟨.right, c, z, l⟩ :: path).flatMap Frame.elems).Nodup :=
    (List.nodup_cons.mp h.nodup).2
  have hsent : t.sentinel ∉ R.toList ++ (down ++ ⟨.right, c, z, l⟩ :: path).flatMap Frame.elems := fun hm =>
    h.sentinel (List.mem_cons_of_mem _ hm)
  have hzmem : z ∈ (⟨.right, c, z, l⟩ :: path : List (Frame Nat)).flatMap Frame.elems := by simp [Frame.elems]
  cases down with
  | nil =>
      have hparent : t.parent y = z := hbranch.parent_eq
      have hside : t.sideOf .left y = .right :=
        hbranch.sideOf_eq hparent (.inl (by simp [BTree.branch])) .left
      obtain ⟨hlinks, hpath⟩ := hbranch.unlink y
      have htake := rbtreeTakePlace_rep (t := (t.setChild .right z (ptr t.sentinel R)).setParent (ptr t.sentinel R) y)
        hnodup hsent h.black hlinks hpath hyout hys
      simp only [hparent, hside, rbtreeReplace, setChild_parent, if_true]
      refine ⟨htake.1, ?_, htake.2.2.1, htake.2.2.2⟩
      rintro rfl p hp
      rw [← Option.some.inj hp]
      refine htake.2.1.trans ?_
      simp [ptr]
  | cons g gs =>
      have hparent : t.parent y = g.x := hbranch.parent_eq
      have hside : t.sideOf .left y = g.side :=
        hbranch.sideOf_eq hparent (.inl (by simp [BTree.branch])) .left
      have hgz : g.x ≠ z := by
        intro heq
        have hhead := hbranch.head_notMem
        apply hhead
        rw [heq]
        apply List.mem_append_right
        have hflat : (gs ++ ⟨.right, c, z, l⟩ :: path).flatMap Frame.elems = _ := List.flatMap_append
        exact hflat ▸ List.mem_append_right _ hzmem
      obtain ⟨hlinks, hpath⟩ := hbranch.unlink g.x
      set t₁ := (t.setChild g.side g.x (ptr t.sentinel R)).setParent (ptr t.sentinel R) g.x with ht₁
      have hrep₁ : t₁.Rep (plug R (g :: gs)) (⟨.right, c, z, l⟩ :: path) :=
        rep_append.mp ⟨hnodup, hsent, h.black, hlinks, hpath⟩
      have hyout₁ : y ∉ (plug R (g :: gs)).toList ++
          (⟨.right, c, z, l⟩ :: path : List (Frame Nat)).flatMap Frame.elems := by
        intro hm
        apply hyout
        rw [List.flatMap_append, ← List.append_assoc]
        exact ((perm_plug R (g :: gs)).append_right _).mem_iff.mp hm
      have htake := rbtreeTakePlace_rep hrep₁.nodup hrep₁.sentinel hrep₁.black hrep₁.links hrep₁.path hyout₁ hys
      simp only [hparent, hside, rbtreeReplace, setChild_parent, if_neg hgz]
      refine ⟨rep_append.mpr htake.1, ?_, htake.2.2.1, htake.2.2.2⟩
      rintro rfl p hp
      rw [← Option.some.inj hp]
      refine htake.2.1.trans ?_
      simp [ht₁, ptr]

theorem ngxRbtreeDelete_two {c cy : Bool} {z y : Nat} {l R : BTree Nat} {down : List (Frame Nat)} {fuel : Nat}
    (hsubst : rbtreeSubst fuel t z = some (y, ptr t.sentinel R))
    (h : t.Valid (plug (.node cy .leaf y R) (down ++ ⟨.right, c, z, l⟩ :: path)))
    (hfuel : (plug (.node cy .leaf y R) (down ++ ⟨.right, c, z, l⟩ :: path)).toList.length + 1 < fuel) :
    ∃ t', ngxRbtreeDelete fuel t z = some t' ∧
      Deleted t z (plug R (down ++ ⟨.right, c, y, l⟩ :: path)).toList t' := by
  have hrep : t.Rep (.node cy .leaf y R) (down ++ ⟨.right, c, z, l⟩ :: path) := rep_plug.mpr h.rep
  have hbranch : t.Rep (BTree.branch .left cy y .leaf R) (down ++ ⟨.right, c, z, l⟩ :: path) := hrep
  have hredy : t.red y = cy := hbranch.red_eq
  have hroot := hrep.ptr_eq_root_iff
  have hyroot : y ≠ t.root := fun heq => absurd (hroot.mp heq) (by simp)
  obtain ⟨m, hm⟩ := h.height
  obtain ⟨k, hk, hpath, -⟩ := rb_plug.mp ⟨m, hm, h.black⟩
  -- the colours around the empty side of `y`
  obtain ⟨bR, hred, hheight⟩ : RB R 0 ∧ (cy = true → R.isRed = false) ∧ k = if cy then 0 else 1 := by
    cases hk with
    | red hl hr bl br =>
        cases bl
        exact ⟨br, fun _ => hr, rfl⟩
    | black bl br =>
        cases bl
        exact ⟨br, by simp, rfl⟩
  subst hheight
  obtain ⟨hrep', hleaf, hkey, hsent⟩ := rbtreeReplace_rep hrep
  -- `z` is gone
  have hnodup := hrep.nodup
  have hperm : ((BTree.node cy .leaf y R).toList ++ (down ++ ⟨.right, c, z, l⟩ :: path).flatMap Frame.elems).Perm
      (z :: (R.toList ++ (down ++ ⟨.right, c, y, l⟩ :: path).flatMap Frame.elems)) := by
    simp only [BTree.toList, List.nil_append, List.flatMap_append, List.flatMap_cons, Frame.elems,
      List.cons_append]
    have h₁ : (R.toList ++ (down.flatMap Frame.elems ++ z :: (l.toList ++ path.flatMap Frame.elems))).Perm
        (z :: (R.toList ++ (down.flatMap Frame.elems ++ (l.toList ++ path.flatMap Frame.elems)))) :=
      (List.perm_middle.append_left _).trans List.perm_middle
    have h₂ : (R.toList ++ (down.flatMap Frame.elems ++ y :: (l.toList ++ path.flatMap Frame.elems))).Perm
        (y :: (R.toList ++ (down.flatMap Frame.elems ++ (l.toList ++ path.flatMap Frame.elems)))) :=
      (List.perm_middle.append_left _).trans List.perm_middle
    exact (h₁.cons y).trans ((List.Perm.swap z y _).trans (h₂.symm.cons z))
  rw [hperm.nodup_iff, List.nodup_cons] at hnodup
  have hzs : z ≠ t.sentinel := by
    intro heq
    exact hrep.sentinel (hperm.mem_iff.mpr (by rw [← heq]; exact List.mem_cons_self))
  have hzy : y ≠ z := by
    rintro rfl
    apply hnodup.1
    apply List.mem_append_right
    rw [List.flatMap_append, List.flatMap_cons]
    exact List.mem_append_right _ (List.mem_append_left _ List.mem_cons_self)
  have hlen : (down ++ ⟨.right, c, y, l⟩ :: path : List (Frame Nat)).length + 1 < fuel := by
    have hle := length_le_elems (down ++ ⟨.right, c, z, l⟩ :: path)
    have hlen := (perm_plug (.node cy .leaf y R) (down ++ ⟨.right, c, z, l⟩ :: path)).length_eq
    rw [List.length_append] at hlen
    simp only [List.length_append, List.length_cons] at hle ⊢
    omega
  obtain ⟨t', hfin, T', hvalid, helems, hkeys, hsents⟩ := rbtreeDelete_finish fuel hrep'
    (fun hl p hp => (by rw [hsent]; exact hleaf hl p hp)) hnodup.1 (by rw [hsent]; exact hzs) bR
    (rbPath_rename hpath) hred hlen
  refine ⟨t', ?_, T', hvalid, helems, fun i hi => (hkeys i hi).trans (by rw [hkey]), hsents.trans hsent⟩
  rw [ngxRbtreeDelete, hsubst]
  simp only [Option.bind_eq_bind, Option.bind_some, if_neg hyroot, if_neg hzy, hredy]
  rw [hsent] at hfin
  exact hfin

/-- `ngx_rbtree_delete` takes exactly one node out of the order, and the tree stays valid. -/
theorem ngxRbtreeDelete_valid {z fuel : Nat} (h : t.Valid T) (hz : z ∈ T.toList)
    (hfuel : T.toList.length + 1 < fuel) :
    ∃ t' T' l₁ l₂, ngxRbtreeDelete fuel t z = some t' ∧ t'.Valid T' ∧ T.toList = l₁ ++ z :: l₂ ∧
      T'.toList = l₁ ++ l₂ ∧ (∀ i, i ≠ z → t'.key i = t.key i) ∧ t'.sentinel = t.sentinel := by
  obtain ⟨c, l, r, path, rfl⟩ := exists_plug hz
  have hrep : t.Rep (.node c l z r) path := rep_plug.mpr h.rep
  have hl : t.Rep l (⟨.left, c, z, r⟩ :: path) := rep_cons.mpr hrep
  have hr : t.Rep r (⟨.right, c, z, l⟩ :: path) := rep_cons.mpr hrep
  have hleft : t.child .left z = ptr t.sentinel l := hrep.links.2.1
  have hright : t.child .right z = ptr t.sentinel r := hrep.links.2.2.1
  by_cases hlleaf : l = .leaf
  · subst hlleaf
    have hsubst : rbtreeSubst fuel t z = some (z, ptr t.sentinel r) := by
      rw [rbtreeSubst, if_pos (show t.child .left z = t.sentinel from hleft), hright]
    obtain ⟨t', hdel, T', hvalid, helems, hkey, hsent⟩ := ngxRbtreeDelete_one (d := .left) hsubst h hfuel
    refine ⟨t', T', before path, r.toList ++ after path, hdel, hvalid, ?_, ?_, hkey, hsent⟩
    · rw [toList_plug]
      rfl
    · rw [helems, toList_plug]
  · by_cases hrleaf : r = .leaf
    · subst hrleaf
      have hne : t.child .left z ≠ t.sentinel := by
        rw [hleft]
        exact fun hs => hlleaf (hl.ptr_eq_sentinel_iff.mp hs)
      have hsubst : rbtreeSubst fuel t z = some (z, ptr t.sentinel l) := by
        rw [rbtreeSubst, if_neg hne, if_pos (show t.child .right z = t.sentinel from hright), hleft]
      obtain ⟨t', hdel, T', hvalid, helems, hkey, hsent⟩ := ngxRbtreeDelete_one (d := .right) hsubst h hfuel
      refine ⟨t', T', before path ++ l.toList, after path, hdel, hvalid, ?_, ?_, hkey, hsent⟩
      · rw [toList_plug]
        simp [BTree.toList]
      · rw [helems, toList_plug, List.append_assoc]
    · have hnel : t.child .left z ≠ t.sentinel := by
        rw [hleft]
        exact fun hs => hlleaf (hl.ptr_eq_sentinel_iff.mp hs)
      have hner : t.child .right z ≠ t.sentinel := by
        rw [hright]
        exact fun hs => hrleaf (hr.ptr_eq_sentinel_iff.mp hs)
      have hrlen : r.toList.length ≤ fuel := by
        rw [toList_plug] at hfuel
        simp only [BTree.toList, List.length_append, List.length_cons] at hfuel
        omega
      obtain ⟨down, cy, y, R, hmin, rfl, hbefore⟩ := ngxRbtreeMin_eq fuel hr hrleaf hrlen
      have hy : t.Rep (.node cy .leaf y R) (down ++ ⟨.right, c, z, l⟩ :: path) := rep_append.mpr hr
      have hsubst : rbtreeSubst fuel t z = some (y, ptr t.sentinel R) := by
        rw [rbtreeSubst, if_neg hnel, if_neg hner, hright, hmin]
        simp only [Option.bind_eq_bind, Option.bind_some]
        rw [show t.child .right y = ptr t.sentinel R from hy.links.2.2.1]
      have hplug : plug (.node cy .leaf y R) (down ++ ⟨.right, c, z, l⟩ :: path) =
          plug (.node c l z (plug (.node cy .leaf y R) down)) path := by
        rw [plug_append]
        rfl
      rw [← hplug] at h hfuel
      obtain ⟨t', hdel, T', hvalid, helems, hkey, hsent⟩ := ngxRbtreeDelete_two hsubst h hfuel
      refine ⟨t', T', before path ++ l.toList, (plug (.node cy .leaf y R) down).toList ++ after path, hdel, hvalid,
        ?_, ?_, hkey, hsent⟩
      · rw [toList_plug]
        simp [BTree.toList]
      · rw [helems, toList_plug, toList_plug, before_append, after_append, hbefore]
        simp [before, after, BTree.toList]

end NginxDtls
