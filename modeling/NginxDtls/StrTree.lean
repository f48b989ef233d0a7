import NginxDtls.Crc32
import NginxDtls.LimitConnZone

/-! The trees of strings of `ngx_string.c`: a red-black tree whose keys are the CRC-32 of the strings, and among equal keys
the order of the lengths and then of the bytes. With the names that are in it a string is found, and no other one. -/

namespace NginxDtls

open Zipper RbTree
open LimitConn (ngxMemcmp ngxMemn2cmp numbers memn2cmp_lt_iff memn2cmp_eq_iff)

/-! ### Searching a tree -/

/-- The loop of a search: `cmp node` is how the sought element compares to a node. -/
def rbtreeSearch (cmp : ℕ → Ordering) : ℕ → RbTree → ℕ → Option (Option ℕ)
  | 0, _, _ => none
  | fuel + 1, t, node =>
    if node = t.sentinel then some none
    else
      match cmp node with
      | .lt => rbtreeSearch cmp fuel t (t.child .left node)
      | .gt => rbtreeSearch cmp fuel t (t.child .right node)
      | .eq => some (some node)

section Search

variable {t : RbTree} {cmp : ℕ → Ordering} {T : BTree ℕ} {path : List (Frame ℕ)}

theorem rbtreeSearch_none (fuel : ℕ) (h : t.Rep T path) (hno : ∀ n ∈ T.toList, cmp n ≠ .eq)
    (hfuel : T.toList.length < fuel) : rbtreeSearch cmp fuel t (ptr t.sentinel T) = some none := by
  induction fuel generalizing T path with
  | zero => exact absurd hfuel (Nat.not_lt_zero _)
  | succ fuel ih =>
      cases T with
      | leaf => exact if_pos rfl
      | node red l x r =>
          have hx : x ≠ t.sentinel := Rep.ne_sentinel (d := .left) h
          have hl : t.Rep l (⟨.left, red, x, r⟩ :: path) := rep_cons.mpr h
          have hr : t.Rep r (⟨.right, red, x, l⟩ :: path) := rep_cons.mpr h
          have hleft : t.child .left x = ptr t.sentinel l := h.links.2.1
          have hright : t.child .right x = ptr t.sentinel r := h.links.2.2.1
          simp only [BTree.toList, List.length_append, List.length_cons] at hfuel
          have hmem : ∀ n, n ∈ (BTree.node red l x r).toList ↔ n ∈ l.toList ∨ n = x ∨ n ∈ r.toList := by
            intro n
            rw [BTree.toList, List.mem_append, List.mem_cons]
          rw [ptr, rbtreeSearch, if_neg hx]
          cases hcmp : cmp x with
          | lt =>
              rw [hleft]
              exact ih hl (fun n hn => hno n ((hmem n).mpr (.inl hn))) (by omega)
          | gt =>
              rw [hright]
              exact ih hr (fun n hn => hno n ((hmem n).mpr (.inr (.inr hn)))) (by omega)
          | eq => exact absurd hcmp (hno x ((hmem x).mpr (.inr (.inl rfl))))

/-- In a tree in order the search finds the element, when it compares as the order says. -/
theorem rbtreeSearch_found (fuel : ℕ) (h : t.Rep T path) {R : ℕ → ℕ → Prop} (hsorted : T.toList.Pairwise R) {z : ℕ}
    (hz : z ∈ T.toList) (heq : cmp z = .eq) (hlt : ∀ n, R z n → cmp n = .lt) (hgt : ∀ n, R n z → cmp n = .gt)
    (hfuel : T.toList.length < fuel) : rbtreeSearch cmp fuel t (ptr t.sentinel T) = some (some z) := by
  induction fuel generalizing T path with
  | zero => exact absurd hfuel (Nat.not_lt_zero _)
  | succ fuel ih =>
      cases T with
      | leaf => exact absurd hz List.not_mem_nil
      | node red l x r =>
          have hx : x ≠ t.sentinel := Rep.ne_sentinel (d := .left) h
          have hl : t.Rep l (⟨.left, red, x, r⟩ :: path) := rep_cons.mpr h
          have hr : t.Rep r (⟨.right, red, x, l⟩ :: path) := rep_cons.mpr h
          have hleft : t.child .left x = ptr t.sentinel l := h.links.2.1
          have hright : t.child .right x = ptr t.sentinel r := h.links.2.2.1
          simp only [BTree.toList, List.length_append, List.length_cons] at hfuel
          simp only [BTree.toList, List.pairwise_append, List.pairwise_cons, List.mem_cons] at hsorted
          obtain ⟨sl, ⟨hxr, sr⟩, hlx⟩ := hsorted
          rw [BTree.toList, List.mem_append, List.mem_cons] at hz
          rw [ptr, rbtreeSearch, if_neg hx]
          rcases hz with hz | rfl | hz
          · rw [hlt x (hlx z hz x (.inl rfl)), hleft]
            exact ih hl sl hz (by omega)
          · rw [heq]
          · rw [hgt x (hxr z hz), hright]
            exact ih hr sr hz (by omega)

end Search

/-! ### Trees of strings -/

/-- `ngx_crc32_long` -/
def ngxCrc32Long (p : List UInt8) : UInt32 := ngxCrc32Final (ngxCrc32Update ngxCrc32Init p)

/-- A tree of `ngx_str_node_t`, with the strings of its nodes and the nodes themselves. -/
structure StrTree where
  rbtree : RbTree
  str : ℕ → List UInt8
  nodes : List ℕ

namespace StrTree

/-- Which way `ngx_str_rbtree_insert_value` goes at `temp`. -/
def goesLeft (d : StrTree) (key : ℕ → ℕ) (node temp : ℕ) : Bool :=
  if key node ≠ key temp then key node < key temp
  else if (d.str node).length ≠ (d.str temp).length then (d.str node).length < (d.str temp).length
  else ngxMemcmp (d.str node) (d.str temp) = .lt

end StrTree

def ngxStrRbtreeInsertValue (d : StrTree) (fuel : ℕ) (t : RbTree) (temp node : ℕ) : Option RbTree :=
  rbtreeInsertBelow (d.goesLeft t.key) fuel t temp node

/-- How a string compares to that of a node in `ngx_str_rbtree_lookup`. -/
def strCompare (d : StrTree) (val : List UInt8) (hash node : ℕ) : Ordering :=
  if hash ≠ d.rbtree.key node then (if hash < d.rbtree.key node then .lt else .gt)
  else if val.length ≠ (d.str node).length then (if val.length < (d.str node).length then .lt else .gt)
  else ngxMemcmp val (d.str node)

namespace StrTree

/-- The fuel of the tree loops. -/
def fuel (d : StrTree) : ℕ := d.nodes.length + 2

end StrTree

def ngxStrRbtreeLookup (d : StrTree) (val : List UInt8) (hash : ℕ) : Option (Option ℕ) :=
  rbtreeSearch (strCompare d val hash) d.fuel d.rbtree d.rbtree.root

namespace StrTree

/-- A new node, with its key. -/
def insert (d : StrTree) (node : ℕ) (str : List UInt8) : Option StrTree := do
  let d' : StrTree := { d with str := Function.update d.str node str }
  let rbtree ← ngxRbtreeInsert (ngxStrRbtreeInsertValue d') d.fuel
    (d.rbtree.setKey node (ngxCrc32Long str).toNat) node
  some { d' with rbtree, nodes := node :: d.nodes }

/-- `ngx_rbtree_init` with the sentinel. -/
def init (memory : RbTree) (sentinel : ℕ) : StrTree := ⟨ngxRbtreeInit memory sentinel, fun _ => [], []⟩

/-! ### The order -/

/-- Where a string has its place. -/
def placeOf (hash : ℕ) (str : List UInt8) : ℕ ×ₗ ℕ ×ₗ List ℕ := toLex (hash, toLex (str.length, numbers str))

theorem placeOf_lt {h₁ h₂ : ℕ} {s₁ s₂ : List UInt8} : placeOf h₁ s₁ < placeOf h₂ s₂ ↔
    h₁ < h₂ ∨ h₁ = h₂ ∧ (s₁.length < s₂.length ∨ s₁.length = s₂.length ∧ numbers s₁ < numbers s₂) := by
  rw [placeOf, placeOf, Prod.Lex.toLex_lt_toLex, Prod.Lex.toLex_lt_toLex]

theorem placeOf_str {h₁ h₂ : ℕ} {s₁ s₂ : List UInt8} (h : placeOf h₁ s₁ = placeOf h₂ s₂) : s₁ = s₂ := by
  rw [placeOf, placeOf, EmbeddingLike.apply_eq_iff_eq, Prod.mk.injEq, EmbeddingLike.apply_eq_iff_eq, Prod.mk.injEq] at h
  exact List.map_injective_iff.mpr (fun a b hab => UInt8.toNat_inj.mp hab) h.2.2

/-- For strings of one length `ngx_memcmp` is the order of the bytes. -/
theorem memcmp_eq_memn2cmp {s₁ s₂ : List UInt8} (h : s₁.length = s₂.length) : ngxMemcmp s₁ s₂ = ngxMemn2cmp s₁ s₂ := by
  have hfull : s₂.take s₁.length = s₂ := by rw [h, List.take_length]
  rw [ngxMemn2cmp, if_pos h.le, List.take_length, hfull]
  exact (if_pos (.inr h)).symm

/-- Where a node has its place. -/
def place (d : StrTree) (node : ℕ) : ℕ ×ₗ ℕ ×ₗ List ℕ := placeOf (d.rbtree.key node) (d.str node)

theorem goesLeft_iff {d : StrTree} {node temp : ℕ} :
    d.goesLeft d.rbtree.key node temp = true ↔ d.place node < d.place temp := by
  rw [place, place, placeOf_lt, goesLeft]
  by_cases hkey : d.rbtree.key node = d.rbtree.key temp
  · rw [if_neg (not_not.mpr hkey)]
    by_cases hlength : (d.str node).length = (d.str temp).length
    · rw [if_neg (not_not.mpr hlength), decide_eq_true_iff, memcmp_eq_memn2cmp hlength, memn2cmp_lt_iff]
      simp [hkey, hlength]
    · rw [if_pos hlength, decide_eq_true_iff]
      simp [hkey, hlength]
  · rw [if_pos hkey, decide_eq_true_iff]
    simp [hkey]

theorem strCompare_lt {d : StrTree} {val : List UInt8} {hash node : ℕ} (h : placeOf hash val < d.place node) :
    strCompare d val hash node = .lt := by
  rw [place, placeOf_lt] at h
  unfold strCompare
  rcases h with h | ⟨hkey, h | ⟨hlength, h⟩⟩
  · rw [if_pos h.ne, if_pos h]
  · rw [if_neg (not_not.mpr hkey), if_pos h.ne, if_pos h]
  · rw [if_neg (not_not.mpr hkey), if_neg (not_not.mpr hlength), memcmp_eq_memn2cmp hlength]
    exact memn2cmp_lt_iff.mpr h

theorem strCompare_eq {d : StrTree} {val : List UInt8} {hash node : ℕ} :
    strCompare d val hash node = .eq ↔ hash = d.rbtree.key node ∧ val = d.str node := by
  unfold strCompare
  by_cases hkey : hash = d.rbtree.key node
  · rw [if_neg (not_not.mpr hkey)]
    by_cases hlength : val.length = (d.str node).length
    · rw [if_neg (not_not.mpr hlength), memcmp_eq_memn2cmp hlength, memn2cmp_eq_iff]
      exact (and_iff_right hkey).symm
    · rw [if_pos hlength]
      refine iff_of_false ?_ fun h => hlength (congrArg List.length h.2)
      split <;> exact Ordering.noConfusion
  · rw [if_pos hkey]
    refine iff_of_false ?_ fun h => hkey h.1
    split <;> exact Ordering.noConfusion

theorem strCompare_gt {d : StrTree} {val : List UInt8} {hash node : ℕ} (h : d.place node < placeOf hash val) :
    strCompare d val hash node = .gt := by
  have hne : strCompare d val hash node ≠ .eq := by
    rw [Ne, strCompare_eq]
    rintro ⟨rfl, rfl⟩
    exact lt_irrefl _ h
  rw [place, placeOf_lt] at h
  unfold strCompare at hne ⊢
  rcases h with h | ⟨hkey, h | ⟨hlength, h⟩⟩
  · rw [if_pos h.ne', if_neg (by omega)]
  · rw [if_neg (not_not.mpr hkey.symm), if_pos h.ne', if_neg (by omega)]
  · rw [if_neg (not_not.mpr hkey.symm), if_neg (not_not.mpr hlength.symm), memcmp_eq_memn2cmp hlength.symm] at hne ⊢
    have hlt : ngxMemn2cmp val (d.str node) ≠ .lt := fun hcmp => lt_asymm h (memn2cmp_lt_iff.mp hcmp)
    cases hcmp : ngxMemn2cmp val (d.str node) with
    | lt => exact absurd hcmp hlt
    | eq => exact absurd hcmp hne
    | gt => rfl

/-! ### What holds of a tree -/

/-- The tree is in order, with its nodes under the checksums of their strings. -/
structure Inv (d : StrTree) (T : BTree ℕ) : Prop where
  valid : d.rbtree.Valid T
  nodes : T.toList.Perm d.nodes
  sorted : T.toList.Pairwise fun m n => d.place m < d.place n
  keys : ∀ n ∈ d.nodes, d.rbtree.key n = (ngxCrc32Long (d.str n)).toNat

variable {d : StrTree} {T : BTree ℕ}

theorem inv_init (memory : RbTree) (sentinel : ℕ) : (init memory sentinel).Inv .leaf :=
  ⟨valid_init memory sentinel, List.Perm.nil, List.Pairwise.nil, fun _ hn => absurd hn List.not_mem_nil⟩

theorem Inv.place_eq (h : d.Inv T) {n : ℕ} (hn : n ∈ d.nodes) :
    d.place n = placeOf (ngxCrc32Long (d.str n)).toNat (d.str n) := by
  rw [place, h.keys n hn]

/-- A string that is in the tree is found. -/
theorem Inv.lookup_found (h : d.Inv T) {n : ℕ} (hn : n ∈ d.nodes) :
    ngxStrRbtreeLookup d (d.str n) (ngxCrc32Long (d.str n)).toNat = some (some n) := by
  have hroot : d.rbtree.root = ptr d.rbtree.sentinel T := h.valid.rep.path
  rw [ngxStrRbtreeLookup, hroot]
  apply rbtreeSearch_found _ h.valid.rep h.sorted (h.nodes.mem_iff.mpr hn) (strCompare_eq.mpr ⟨(h.keys n hn).symm, rfl⟩)
  · intro m hm
    rw [h.place_eq hn] at hm
    exact strCompare_lt hm
  · intro m hm
    rw [h.place_eq hn] at hm
    exact strCompare_gt hm
  · rw [h.nodes.length_eq, fuel]
    omega

theorem Inv.lookup_none (h : d.Inv T) {val : List UInt8} (hno : ∀ n ∈ d.nodes, d.str n ≠ val) (hash : ℕ) :
    ngxStrRbtreeLookup d val hash = some none := by
  have hroot : d.rbtree.root = ptr d.rbtree.sentinel T := h.valid.rep.path
  rw [ngxStrRbtreeLookup, hroot]
  apply rbtreeSearch_none _ h.valid.rep
  · intro n hn hcmp
    exact hno n (h.nodes.mem_iff.mp hn) (strCompare_eq.mp hcmp).2.symm
  · rw [h.nodes.length_eq, fuel]
    omega

/-- The strings of the nodes are different. -/
theorem Inv.str_inj (h : d.Inv T) {m n : ℕ} (hm : m ∈ d.nodes) (hn : n ∈ d.nodes) (hstr : d.str m = d.str n) : m = n := by
  have hfound := h.lookup_found hm
  rw [hstr, h.lookup_found hn] at hfound
  exact (Option.some.inj (Option.some.inj hfound)).symm

/-- A new string. -/
theorem Inv.insert (h : d.Inv T) {node : ℕ} {str : List UInt8} (hnode : node ∉ d.nodes) (hsentinel : node ≠ d.rbtree.sentinel)
    (hno : ∀ n ∈ d.nodes, d.str n ≠ str) :
    ∃ d' T', d.insert node str = some d' ∧ d'.Inv T' ∧ d'.nodes = node :: d.nodes ∧ d'.str node = str ∧
      (∀ n ∈ d.nodes, d'.str n = d.str n) ∧ d'.rbtree.sentinel = d.rbtree.sentinel := by
  have hother : ∀ n ∈ d.nodes, n ≠ node := fun n hn heq => hnode (heq ▸ hn)
  let d₁ : StrTree := { d with
    str := Function.update d.str node str
    rbtree := d.rbtree.setKey node (ngxCrc32Long str).toNat }
  have hstr : ∀ n ∈ d.nodes, d₁.str n = d.str n := fun n hn => Function.update_of_ne (hother n hn) ..
  have hnew : d₁.str node = str := Function.update_self ..
  have hkeys : ∀ n ∈ d.nodes, d₁.rbtree.key n = d.rbtree.key n := fun n hn => by
    show (d.rbtree.setKey node _).key n = _
    rw [setKey_key, if_neg (hother n hn)]
  have hkey : d₁.rbtree.key node = (ngxCrc32Long str).toNat := by
    show (d.rbtree.setKey node _).key node = _
    rw [setKey_key, if_pos rfl]
  have hplace : ∀ n ∈ T.toList, d₁.place n = d.place n := fun n hn => by
    have hn := h.nodes.mem_iff.mp hn
    rw [place, place, hkeys n hn, hstr n hn]
  have hne : ∀ n ∈ T.toList, d₁.place n ≠ d₁.place node := fun n hn heq => by
    have hn' := h.nodes.mem_iff.mp hn
    have hsame := placeOf_str heq
    rw [hnew, hstr n hn'] at hsame
    exact hno n hn' hsame
  have : IsTrans ℕ fun m n => d₁.place m < d₁.place n := ⟨fun _ _ _ => lt_trans⟩
  have hsorted : T.toList.Pairwise fun m n => d₁.place m < d₁.place n :=
    h.sorted.imp_of_mem fun hm hn hlt => by rwa [hplace _ hm, hplace _ hn]
  have hbelow : ngxStrRbtreeInsertValue d₁ d.fuel d₁.rbtree d₁.rbtree.root node =
      rbtreeInsertBelow (d₁.goesLeft d₁.rbtree.key) d.fuel d₁.rbtree d₁.rbtree.root node := rfl
  have hfuel : T.toList.length < d.fuel := by
    rw [h.nodes.length_eq, fuel]
    omega
  obtain ⟨t', T', hins, hvalid, hperm, hsorted', hkeys', hsent⟩ :=
    (h.valid.setKey node (ngxCrc32Long str).toNat).insert_sorted hbelow (fun hmem => hnode (h.nodes.mem_iff.mp hmem))
      hsentinel hfuel hsorted
      (fun y hy hgo => by
        have hnot := mt goesLeft_iff.mpr (by rw [hgo]; exact Bool.false_ne_true)
        exact lt_of_le_of_ne (not_lt.mp hnot) (hne y hy))
      (fun y _ hgo => goesLeft_iff.mp hgo)
  refine ⟨{ d₁ with rbtree := t', nodes := node :: d.nodes }, T', ?_, ⟨hvalid, hperm.trans (h.nodes.cons node), ?_, ?_⟩,
    rfl, hnew, hstr, hsent⟩
  · have hins' : ngxRbtreeInsert (ngxStrRbtreeInsertValue { d with str := Function.update d.str node str }) d.fuel
        (d.rbtree.setKey node (ngxCrc32Long str).toNat) node = some t' := hins
    rw [StrTree.insert]
    simp only [hins', Option.bind_eq_bind, Option.bind_some]
    rfl
  · refine hsorted'.imp fun hlt => ?_
    rw [place, place] at hlt ⊢
    show placeOf (t'.key _) _ < placeOf (t'.key _) _
    rwa [hkeys']
  · intro n hn
    show t'.key n = (ngxCrc32Long (d₁.str n)).toNat
    rw [hkeys']
    rcases List.mem_cons.mp hn with rfl | hn
    · exact hkey.trans (congrArg (fun s => (ngxCrc32Long s).toNat) hnew.symm)
    · rw [hstr n hn]
      exact (hkeys n hn).trans (h.keys n hn)

end StrTree

end NginxDtls
