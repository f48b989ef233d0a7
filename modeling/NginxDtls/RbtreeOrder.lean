import NginxDtls.RbtreeDelete
import NginxDtls.Run

/-! Red-black trees over whole runs of insertions and deletions: the tree stays valid, its in-order sequence are the
nodes that were inserted and not yet deleted, by key, and `ngx_rbtree_next` walks along this sequence. -/

namespace NginxDtls

open Zipper RbTree Run

/-! ### Walking -/

/-- The loop of `ngx_rbtree_next`: up to the first ancestor on whose left side the node lies. -/
def rbtreeNextUp : Nat → RbTree → Nat → Option (Option Nat)
  | 0, _, _ => none
  | fuel + 1, t, node =>
    let parent := t.parent node
    if node = t.root then some none
    else if node = t.child .left parent then some (some parent)
    else rbtreeNextUp fuel t parent

/-- `ngx_rbtree_next`; the inner `none` is `NULL`. -/
def ngxRbtreeNext (fuel : Nat) (t : RbTree) (node : Nat) : Option (Option Nat) :=
  if t.child .right node ≠ t.sentinel then (ngxRbtreeMin fuel t (t.child .right node)).map some
  else rbtreeNextUp fuel t node

variable {t : RbTree} {T : BTree Nat} {path : List (Frame Nat)}

/-- The way up ends at the first element behind the subtree. -/
theorem rbtreeNextUp_eq (fuel : Nat) {red : Bool} {l r : BTree Nat} {x : Nat} (h : t.Rep (.node red l x r) path)
    (hfuel : path.length < fuel) : rbtreeNextUp fuel t x = some (after path).head? := by
  induction path generalizing red l r x fuel with
  | nil =>
      obtain ⟨fuel, rfl⟩ := Nat.exists_eq_add_of_lt hfuel
      rw [rbtreeNextUp]
      exact if_pos (h.ptr_eq_root_iff.mpr rfl)
  | cons f path ih =>
      obtain ⟨fuel, rfl⟩ : ∃ n, fuel = n + 1 := ⟨fuel - 1, by omega⟩
      have hroot : x ≠ t.root := fun hx => List.cons_ne_nil f path (h.ptr_eq_root_iff.mp hx)
      have hparent : t.parent x = f.x := Rep.parent_eq (d := .left) h
      have hside : t.sideOf .left x = f.side := h.sideOf_eq hparent (Or.inl (by simp)) .left
      rw [rbtreeNextUp, if_neg hroot, hparent]
      cases hf : f.side with
      | left =>
          have hleft : x = t.child .left f.x := by
            have hhole := h.path.2.1
            rw [hf] at hhole
            exact hhole.symm
          rw [if_pos hleft, after, hf]
          rfl
      | right =>
          have hleft : x ≠ t.child .left f.x := by
            intro hx
            rw [sideOf, hparent, if_pos hx, hf] at hside
            cases hside
          have hfill : ∃ red' l' r', f.fill (.node red l x r) = .node red' l' f.x r' := by
            rw [Frame.fill, hf]
            exact ⟨_, _, _, rfl⟩
          obtain ⟨red', l', r', hfill⟩ := hfill
          have hup := rep_cons.mp h
          rw [hfill] at hup
          simp only [List.length_cons] at hfuel
          rw [if_neg hleft, ih fuel hup (by omega), after, hf]
          rfl

/-- `ngx_rbtree_next` of a node is the node behind it in the in-order sequence. -/
theorem ngxRbtreeNext_eq {fuel : Nat} (h : t.Rep T []) {l₁ l₂ : List Nat} {x : Nat} (hx : T.toList = l₁ ++ x :: l₂)
    (hfuel : T.toList.length < fuel) : ngxRbtreeNext fuel t x = some l₂.head? := by
  obtain ⟨red, l, r, path, rfl⟩ := exists_plug (show x ∈ T.toList by simp [hx])
  have hrep : t.Rep (.node red l x r) path := rep_plug.mpr h
  have hnodup : (plug (.node red l x r) path).toList.Nodup := by
    have := h.nodup
    rwa [List.flatMap_nil, List.append_nil] at this
  have hsplit : (plug (.node red l x r) path).toList = (before path ++ l.toList) ++ x :: (r.toList ++ after path) := by
    rw [toList_plug]
    simp [BTree.toList]
  have hrest : l₂ = r.toList ++ after path := by
    rw [hsplit] at hx hnodup
    have hnot := (List.nodup_cons.mp (List.nodup_middle.mp hnodup)).1
    rw [List.mem_append, not_or] at hnot
    exact ((List.append_cons_inj_of_notMem hnot.1 hnot.2).mp hx).2.2.symm
  have hr : t.Rep r (⟨.right, red, x, l⟩ :: path) := rep_cons.mpr hrep
  have hright : t.child .right x = ptr t.sentinel r := hrep.links.2.2.1
  have hlen := congrArg List.length hsplit
  simp only [List.length_append, List.length_cons] at hlen
  rw [ngxRbtreeNext, hright, hrest]
  by_cases hleaf : r = .leaf
  · rw [if_neg (not_not.mpr (hr.ptr_eq_sentinel_iff.mpr hleaf)), hleaf]
    have hlength := (perm_plug (.node red l x r) path).length_eq
    have hpath := length_le_elems path
    rw [List.length_append] at hlength
    exact rbtreeNextUp_eq fuel hrep (by omega)
  · have hne : ptr t.sentinel r ≠ t.sentinel := fun hs => hleaf (hr.ptr_eq_sentinel_iff.mp hs)
    obtain ⟨down, red', y, r', hmin, hplug, hbefore⟩ := ngxRbtreeMin_eq fuel hr hleaf (by omega)
    have hhead : r.toList = y :: (r'.toList ++ after down) := by
      rw [hplug, toList_plug, hbefore]
      rfl
    rw [if_pos hne, hmin, hhead]
    rfl

/-! ### Order -/

theorem RbTree.Valid.nodup (h : t.Valid T) : T.toList.Nodup := by
  have hrep := h.rep.nodup
  rwa [List.flatMap_nil, List.append_nil] at hrep

/-- A node enters a tree that is in an order, which the insert function follows. -/
theorem RbTree.Valid.insert_sorted {insert : Nat → RbTree → Nat → Nat → Option RbTree} {goesLeft : Nat → Nat → Bool}
    {R : Nat → Nat → Prop} [IsTrans Nat R] {fuel z : Nat}
    (hinsert : insert fuel t t.root z = rbtreeInsertBelow goesLeft fuel t t.root z) (h : t.Valid T)
    (hz : z ∉ T.toList) (hzs : z ≠ t.sentinel) (hfuel : T.toList.length < fuel) (hsorted : T.toList.Pairwise R)
    (hright : ∀ y ∈ T.toList, goesLeft z y = false → R y z) (hleft : ∀ y ∈ T.toList, goesLeft z y = true → R z y) :
    ∃ t' T', ngxRbtreeInsert insert fuel t z = some t' ∧ t'.Valid T' ∧ T'.toList.Perm (z :: T.toList) ∧
      T'.toList.Pairwise R ∧ t'.key = t.key ∧ t'.sentinel = t.sentinel := by
  obtain ⟨t', T', l₁, l₂, hins, hvalid, hsplit, helems, hlast, hhead, hkeys, hsent⟩ :=
    ngxRbtreeInsert_valid _ hinsert h hz hzs hfuel
  refine ⟨t', T', hins, hvalid, ?_, ?_, hkeys, hsent⟩
  · rw [helems, hsplit]
    exact List.perm_middle
  · rw [helems]
    rw [hsplit] at hsorted hright hleft
    refine pairwise_insert hsorted ?_ ?_
    · intro y hy
      exact hright y (List.mem_append_left _ (List.mem_of_getLast? hy)) (hlast y hy)
    · intro y hy
      exact hleft y (List.mem_append_right _ (List.mem_of_head? hy)) (hhead y hy)

/-- A node leaves a tree; the others stay in their order and keep their keys. -/
theorem RbTree.Valid.delete_sorted {z fuel : Nat} (h : t.Valid T) (hz : z ∈ T.toList)
    (hfuel : T.toList.length + 1 < fuel) :
    ∃ t' T', ngxRbtreeDelete fuel t z = some t' ∧ t'.Valid T' ∧ T'.toList = T.toList.erase z ∧
      (∀ i, i ≠ z → t'.key i = t.key i) ∧ t'.sentinel = t.sentinel := by
  obtain ⟨t', T', l₁, l₂, hdel, hvalid, hsplit, helems, hkeys, hsent⟩ := ngxRbtreeDelete_valid h hz hfuel
  have hnodup := h.nodup
  rw [hsplit, List.nodup_middle, List.nodup_cons, List.mem_append, not_or] at hnodup
  refine ⟨t', T', hdel, hvalid, ?_, hkeys, hsent⟩
  rw [helems, hsplit, List.erase_append_right _ hnodup.1.1, List.erase_cons_head]

/-- The least node is the first one in order. -/
theorem ngxRbtreeMin_head {fuel x : Nat} {l : List Nat} (h : t.Valid T) (hx : T.toList = x :: l)
    (hfuel : T.toList.length ≤ fuel) : ngxRbtreeMin fuel t t.root = some x := by
  have hleaf : T ≠ .leaf := by
    rintro rfl
    cases hx
  obtain ⟨down, red, y, r, hmin, hplug, hbefore⟩ := ngxRbtreeMin_eq fuel h.rep hleaf hfuel
  rw [hplug, toList_plug, hbefore] at hx
  obtain rfl : y = x := by simpa [BTree.toList] using congrArg List.head? hx
  have hroot : t.root = ptr t.sentinel T := h.rep.path
  rw [hroot]
  exact hmin

/-! ### Runs -/

/-- A tree with the nodes that are in it and the keys they came with. -/
structure KeyedTree where
  tree : RbTree
  nodes : List (Nat × Nat)

inductive TreeCall where
  | insert (node key : Nat)
  | delete (node : Nat)

/-- The fuel of the loops. -/
def KeyedTree.fuel (st : KeyedTree) : Nat := st.nodes.length + 2

/-- A call on the tree, whose insert function is `ngx_rbtree_insert_value`; absent if a loop did not end within its
fuel. The caller sets the key of the node that it inserts. -/
def treeStep (st : Option KeyedTree) (call : TreeCall) : Option KeyedTree :=
  st.bind fun st => match call with
  | .insert node key =>
    (ngxRbtreeInsert ngxRbtreeInsertValue st.fuel (st.tree.setKey node key) node).map fun tree =>
      { tree, nodes := (node, key) :: st.nodes }
  | .delete node =>
    (ngxRbtreeDelete st.fuel st.tree node).map fun tree =>
      { tree, nodes := st.nodes.filter fun entry => entry.1 ≠ node }

def treeStart (memory : RbTree) (sentinel : Nat) : KeyedTree := { tree := ngxRbtreeInit memory sentinel, nodes := [] }

/-- A node that is inserted is not in the tree and not its sentinel, and one that is deleted is in the tree. -/
def KeyedTree.Allows (st : KeyedTree) : TreeCall → Prop
  | .insert node _ => node ≠ st.tree.sentinel ∧ node ∉ st.nodes.map Prod.fst
  | .delete node => node ∈ st.nodes.map Prod.fst

instance (st : KeyedTree) : ∀ call, Decidable (st.Allows call)
  | .insert _ _ => inferInstanceAs (Decidable (_ ∧ _))
  | .delete _ => inferInstanceAs (Decidable (_ ∈ _))

/-- The heap is a red-black tree `T` with a black root and the right parent links; its in-order sequence are the nodes
with the keys they came with, by key, and the walk from the least node goes along it. -/
structure KeyedTree.Right (st : KeyedTree) (T : BTree Nat) : Prop where
  valid : st.tree.Valid T
  nodes : (T.toList.map fun n => (n, st.tree.key n)).Perm st.nodes
  sorted : T.toList.Pairwise fun m n => st.tree.key m ≤ st.tree.key n
  least : ∀ x l, T.toList = x :: l → ngxRbtreeMin st.fuel st.tree st.tree.root = some x
  next : ∀ l₁ x l₂, T.toList = l₁ ++ x :: l₂ → ngxRbtreeNext st.fuel st.tree x = some l₂.head?

namespace KeyedTree

/-- What the calls keep; the rest follows from it. -/
structure Sorted (st : KeyedTree) (T : BTree Nat) : Prop where
  valid : st.tree.Valid T
  nodes : (T.toList.map fun n => (n, st.tree.key n)).Perm st.nodes
  sorted : T.toList.Pairwise fun m n => st.tree.key m ≤ st.tree.key n

variable {st : KeyedTree}

theorem Sorted.length (h : st.Sorted T) : T.toList.length = st.nodes.length := by
  simpa using h.nodes.length_eq

theorem Sorted.mem_iff (h : st.Sorted T) {node : Nat} : node ∈ T.toList ↔ node ∈ st.nodes.map Prod.fst := by
  rw [← (h.nodes.map Prod.fst).mem_iff, List.map_map]
  simp

theorem Sorted.right (h : st.Sorted T) : st.Right T := by
  have hfuel : T.toList.length < st.fuel := by
    rw [h.length, fuel]
    omega
  exact ⟨h.valid, h.nodes, h.sorted, fun x l hx => ngxRbtreeMin_head h.valid hx hfuel.le,
    fun l₁ x l₂ hx => ngxRbtreeNext_eq h.valid.rep hx hfuel⟩

/-- Every node of a tree with a new key of a node outside has the key it had. -/
theorem map_key_congr {t t' : RbTree} {l : List Nat} (h : ∀ n ∈ l, t'.key n = t.key n) :
    (l.map fun n => (n, t'.key n)) = l.map fun n => (n, t.key n) :=
  List.map_congr_left fun n hn => by rw [h n hn]

theorem Sorted.insert (h : st.Sorted T) {node key : Nat} (hok : st.Allows (.insert node key)) :
    ∃ st' T', treeStep (some st) (.insert node key) = some st' ∧ st'.Sorted T' ∧
      st'.tree.sentinel = st.tree.sentinel := by
  have hout : node ∉ T.toList := fun hmem => hok.2 (h.mem_iff.mp hmem)
  have hfuel : T.toList.length < st.fuel := by
    rw [h.length, fuel]
    omega
  have hbelow : ngxRbtreeInsertValue st.fuel (st.tree.setKey node key) (st.tree.setKey node key).root node =
      rbtreeInsertBelow (fun z y => (st.tree.setKey node key).key z < (st.tree.setKey node key).key y)
        st.fuel (st.tree.setKey node key) (st.tree.setKey node key).root node := rfl
  have hne : ∀ n ∈ T.toList, (st.tree.setKey node key).key n = st.tree.key n := by
    intro n hn
    have hne : n ≠ node := fun heq => hout (heq ▸ hn)
    rw [setKey_key, if_neg hne]
  have : IsTrans Nat fun m n => (st.tree.setKey node key).key m ≤ (st.tree.setKey node key).key n :=
    ⟨fun _ _ _ => le_trans⟩
  have hsorted : T.toList.Pairwise fun m n =>
      (st.tree.setKey node key).key m ≤ (st.tree.setKey node key).key n := by
    refine h.sorted.imp_of_mem ?_
    intro m n hm hn hle
    rwa [hne m hm, hne n hn]
  obtain ⟨t', T', hins, hvalid, hperm, hsorted', hkeys, hsent⟩ :=
    (h.valid.setKey node key).insert_sorted hbelow hout hok.1 hfuel hsorted
      (fun y _ hgo => not_lt.mp (of_decide_eq_false hgo)) (fun y _ hgo => (of_decide_eq_true hgo).le)
  have hself : t'.key node = key := by
    rw [hkeys, setKey_key, if_pos rfl]
  have hold : ∀ n ∈ T.toList, t'.key n = st.tree.key n := by
    intro n hn
    rw [hkeys, hne n hn]
  refine ⟨{ tree := t', nodes := (node, key) :: st.nodes }, T', ?_, ⟨hvalid, ?_, ?_⟩, hsent⟩
  · rw [treeStep, Option.bind_some]
    simp only [hins, Option.map_some]
  · refine (hperm.map _).trans ?_
    rw [List.map_cons, hself, map_key_congr hold]
    exact h.nodes.cons _
  · rwa [hkeys]

theorem Sorted.delete (h : st.Sorted T) {node : Nat} (hok : st.Allows (.delete node)) :
    ∃ st' T', treeStep (some st) (.delete node) = some st' ∧ st'.Sorted T' ∧
      st'.tree.sentinel = st.tree.sentinel := by
  have hfuel : T.toList.length + 1 < st.fuel := by
    rw [h.length, fuel]
    omega
  obtain ⟨t', T', hdel, hvalid, helems, hkeys, hsent⟩ := h.valid.delete_sorted (h.mem_iff.mpr hok) hfuel
  have hperm : T.toList.Perm (node :: T'.toList) := by
    rw [helems]
    exact List.perm_cons_erase (h.mem_iff.mpr hok)
  have hout : node ∉ T'.toList := by
    rw [helems]
    exact h.valid.nodup.not_mem_erase
  have hold : ∀ n ∈ T'.toList, t'.key n = st.tree.key n := fun n hn => hkeys n fun heq => hout (heq ▸ hn)
  refine ⟨{ tree := t', nodes := st.nodes.filter fun entry => entry.1 ≠ node }, T', ?_, ⟨hvalid, ?_, ?_⟩, hsent⟩
  · rw [treeStep, Option.bind_some]
    simp only [hdel, Option.map_some]
  · have hnodes := (hperm.map fun n => (n, st.tree.key n)).symm.trans h.nodes
    have hfilter := hnodes.filter fun entry => decide (entry.1 ≠ node)
    have hkeep : ((T'.toList.map fun n => (n, st.tree.key n)).filter fun entry => decide (entry.1 ≠ node)) =
        T'.toList.map fun n => (n, st.tree.key n) := by
      refine List.filter_eq_self.mpr fun entry hentry => ?_
      obtain ⟨n, hn, rfl⟩ := List.mem_map.mp hentry
      have hne : n ≠ node := fun heq => hout (heq ▸ hn)
      simpa using hne
    rw [List.map_cons, List.filter_cons, if_neg (by simp), hkeep] at hfilter
    rw [map_key_congr hold]
    exact hfilter
  · have hsub : T'.toList.Sublist T.toList := by
      rw [helems]
      exact List.erase_sublist
    refine (h.sorted.sublist hsub).imp_of_mem ?_
    intro m n hm hn hle
    rwa [hold m hm, hold n hn]

end KeyedTree

/-- Whatever nodes are inserted and deleted, the loops end, and the tree is valid, ordered, and enumerated by
`ngx_rbtree_next` after each call. -/
theorem rbtree_runs (memory : RbTree) (sentinel : Nat) (calls : List TreeCall)
    (hcalls : Along treeStep (fun st call => ∀ keyed ∈ st, keyed.Allows call)
      (some (treeStart memory sentinel)) calls) :
    ∃ st T, run treeStep (some (treeStart memory sentinel)) calls = some st ∧ st.Right T := by
  have hinv := run_invariant (I := fun st => ∃ keyed T, st = some keyed ∧ keyed.Sorted T)
    (by
      rintro _ call ⟨st, T, rfl, h⟩ hok
      cases call with
      | insert node key =>
          obtain ⟨st', T', hstep, h', -⟩ := h.insert (hok st rfl)
          exact ⟨st', T', hstep, h'⟩
      | delete node =>
          obtain ⟨st', T', hstep, h', -⟩ := h.delete (hok st rfl)
          exact ⟨st', T', hstep, h'⟩)
    ⟨_, .leaf, rfl, valid_init memory sentinel, List.Perm.refl _, List.Pairwise.nil⟩ hcalls
  obtain ⟨st, T, hrun, h⟩ := hinv
  exact ⟨st, T, hrun, h.right⟩

/-- Three nodes, two of them with the same key, of which the first goes. -/
theorem rbtree_runs_three :
    ∃ st T, run treeStep (some (treeStart ⟨fun _ => 0, fun _ _ => 0, fun _ => 0, fun _ => false, 0, 0⟩ 1))
      [.insert 2 7, .insert 3 5, .insert 4 7, .delete 2] = some st ∧ st.Right T := by
  apply rbtree_runs
  decide

end NginxDtls
