import NginxDtls.LimitConnZone

/-! Nodes with a key of bytes in a red-black tree, by the checksum of the key and then by its bytes: the search, and what an
insertion and a removal keep. Several modules have such trees in shared memory. -/

namespace NginxDtls.CrcTree

open Zipper RbTree LimitConn

/-- Which way the insertion of `node` goes at `temp`. -/
def goesLeft (data : ℕ → List UInt8) (key : ℕ → ℕ) (node temp : ℕ) : Bool :=
  if key node < key temp then true
  else if key node > key temp then false
  else ngxMemn2cmp (data node) (data temp) = .lt

/-- The insert function of such a tree. -/
def insertValue (data : ℕ → List UInt8) (fuel : ℕ) (t : RbTree) (temp node : ℕ) : Option RbTree :=
  rbtreeInsertBelow (goesLeft data t.key) fuel t temp node

/-- The loop that looks for a key; the inner `none` stands for no node. -/
def search (t : RbTree) (data : ℕ → List UInt8) (key : List UInt8) (hash : ℕ) : ℕ → ℕ → Option (Option ℕ)
  | 0, _ => none
  | fuel + 1, node =>
    if node = t.sentinel then some none
    else if hash < t.key node then search t data key hash fuel (t.child .left node)
    else if hash > t.key node then search t data key hash fuel (t.child .right node)
    else
      let rc := ngxMemn2cmp key (data node)
      if rc = .eq then some (some node)
      else search t data key hash fuel (if rc = .lt then t.child .left node else t.child .right node)

/-- The tree is in order, with its nodes under the checksums of their keys. -/
structure Ordered (t : RbTree) (data : ℕ → List UInt8) (T : BTree ℕ) : Prop where
  valid : t.Valid T
  sorted : T.toList.Pairwise fun m n => place (t.key m) (data m) < place (t.key n) (data n)
  keys : ∀ n ∈ T.toList, t.key n = (ngxCrc32Short (data n)).toNat

/-- The tree as that of a zone for connections. -/
def zoneOf (t : RbTree) (data : ℕ → List UInt8) : Zone := ⟨t, fun n => ⟨data n, 0, 0⟩, []⟩

theorem search_eq (t : RbTree) (data : ℕ → List UInt8) (key : List UInt8) (hash fuel node : ℕ) :
    search t data key hash fuel node = lookupFrom (zoneOf t data) key hash fuel node := by
  induction fuel generalizing node with
  | zero => rfl
  | succ fuel ih =>
      rw [search, lookupFrom]
      simp only [ih]
      rfl

namespace Ordered

variable {t : RbTree} {data : ℕ → List UInt8} {T : BTree ℕ}

theorem place_eq_iff (h : Ordered t data T) {n : ℕ} (hn : n ∈ T.toList) {key : List UInt8} :
    place (t.key n) (data n) = LimitConn.keyPlace key ↔ data n = key := by
  rw [LimitConn.keyPlace, place_eq, h.keys n hn]
  exact ⟨fun heq => heq.2, fun heq => ⟨by rw [heq], heq⟩⟩

/-- Two nodes have different keys. -/
theorem unique (h : Ordered t data T) {m n : ℕ} (hm : m ∈ T.toList) (hn : n ∈ T.toList) (hdata : data m = data n) :
    m = n := by
  by_contra hne
  have hplace := ((h.place_eq_iff hm).mpr hdata).trans ((h.place_eq_iff hn).mpr rfl).symm
  have hsymm : Std.Symm fun a b => place (t.key a) (data a) ≠ place (t.key b) (data b) := ⟨fun _ _ hab => hab.symm⟩
  have hdistinct := h.sorted.imp fun hlt => hlt.ne
  exact hdistinct.forall hm hn hne hplace

/-- The search finds the node of a key. -/
theorem search_found (h : Ordered t data T) {n : ℕ} (hn : n ∈ T.toList) {fuel : ℕ} (hfuel : T.toList.length < fuel) :
    search t data (data n) (ngxCrc32Short (data n)).toNat fuel t.root = some (some n) := by
  have hroot : t.root = ptr t.sentinel T := h.valid.rep.path
  rw [search_eq, hroot]
  exact @lookupFrom_found (zoneOf t data) _ _ _ _ fuel h.valid.rep h.sorted n hn ((h.place_eq_iff hn).mpr rfl) hfuel

/-- The search for a key that no node has. -/
theorem search_none (h : Ordered t data T) {key : List UInt8} (hno : ∀ n ∈ T.toList, data n ≠ key) {fuel : ℕ}
    (hfuel : T.toList.length < fuel) : search t data key (ngxCrc32Short key).toNat fuel t.root = some none := by
  have hroot : t.root = ptr t.sentinel T := h.valid.rep.path
  rw [search_eq, hroot]
  exact @lookupFrom_none (zoneOf t data) _ _ _ _ fuel h.valid.rep
    (fun n hn hplace => hno n hn ((h.place_eq_iff hn).mp hplace)) hfuel

/-- Only the bytes of the keys count. -/
theorem congr (h : Ordered t data T) {data' : ℕ → List UInt8} (hdata : ∀ n ∈ T.toList, data' n = data n) :
    Ordered t data' T where
  valid := h.valid
  sorted := h.sorted.imp_of_mem fun hm hn hlt => by rwa [hdata _ hm, hdata _ hn]
  keys := fun n hn => by rw [hdata n hn, h.keys n hn]

/-- A node for a new key. -/
theorem insert (h : Ordered t data T) {key : List UInt8} (hno : ∀ n ∈ T.toList, data n ≠ key) {node : ℕ}
    (hnode : node ≠ t.sentinel) (hout : node ∉ T.toList) {fuel : ℕ} (hfuel : T.toList.length < fuel) :
    ∃ t' T', ngxRbtreeInsert (insertValue (Function.update data node key)) fuel
        (t.setKey node (ngxCrc32Short key).toNat) node = some t' ∧
      Ordered t' (Function.update data node key) T' ∧ T'.toList.Perm (node :: T.toList) ∧ t'.sentinel = t.sentinel := by
  have hother : ∀ n ∈ T.toList, n ≠ node := fun n hn heq => hout (heq ▸ hn)
  let zone : Zone := zoneOf (t.setKey node (ngxCrc32Short key).toNat) (Function.update data node key)
  have hold : ∀ n ∈ T.toList, zone.place n = place (t.key n) (data n) := fun n hn => by
    show place ((t.setKey node _).key n) (Function.update data node key n) = _
    rw [setKey_key, if_neg (hother n hn), Function.update_of_ne (hother n hn)]
  have hnew : zone.place node = LimitConn.keyPlace key := by
    show place ((t.setKey node _).key node) (Function.update data node key node) = _
    rw [setKey_key, if_pos rfl, Function.update_self, LimitConn.keyPlace]
  have hne : ∀ n ∈ T.toList, zone.place n ≠ zone.place node := fun n hn heq => by
    rw [hold n hn, hnew, h.place_eq_iff hn] at heq
    exact hno n hn heq
  have : IsTrans ℕ fun m n => zone.place m < zone.place n := ⟨fun _ _ _ => lt_trans⟩
  have hsorted : T.toList.Pairwise fun m n => zone.place m < zone.place n :=
    h.sorted.imp_of_mem fun hm hn hlt => by rwa [hold _ hm, hold _ hn]
  have hbelow : insertValue (Function.update data node key) fuel (t.setKey node (ngxCrc32Short key).toNat)
      (t.setKey node (ngxCrc32Short key).toNat).root node =
      rbtreeInsertBelow (zone.goesLeft zone.rbtree.key) fuel (t.setKey node (ngxCrc32Short key).toNat)
        (t.setKey node (ngxCrc32Short key).toNat).root node := rfl
  obtain ⟨t', T', hins, hvalid, hperm, hsorted', hkeys, hsent⟩ :=
    (h.valid.setKey node (ngxCrc32Short key).toNat).insert_sorted hbelow hout hnode hfuel hsorted
      (fun y hy hgo => by
        have hnot := mt Zone.goesLeft_iff.mpr (by rw [hgo]; exact Bool.false_ne_true)
        exact lt_of_le_of_ne (not_lt.mp hnot) (hne y hy))
      (fun y _ hgo => Zone.goesLeft_iff.mp hgo)
  refine ⟨t', T', hins, ⟨hvalid, ?_, ?_⟩, hperm, hsent⟩
  · rw [hkeys]
    exact hsorted'
  · intro n hn
    rw [hkeys, setKey_key]
    rcases List.mem_cons.mp (hperm.mem_iff.mp hn) with rfl | hn
    · rw [if_pos rfl, Function.update_self]
    · rw [if_neg (hother n hn), Function.update_of_ne (hother n hn)]
      exact h.keys n hn

/-- A node goes, and the others keep their keys. -/
theorem delete (h : Ordered t data T) {node : ℕ} (hnode : node ∈ T.toList) {fuel : ℕ} (hfuel : T.toList.length + 1 < fuel) :
    ∃ t' T', ngxRbtreeDelete fuel t node = some t' ∧ Ordered t' data T' ∧ T'.toList = T.toList.erase node ∧
      t'.sentinel = t.sentinel := by
  obtain ⟨t', T', hdel, hvalid, helems, hkeys, hsent⟩ := h.valid.delete_sorted hnode hfuel
  have hmem : ∀ n ∈ T'.toList, n ∈ T.toList ∧ n ≠ node := fun n hn => by
    rw [helems] at hn
    exact ⟨List.mem_of_mem_erase hn, fun heq => h.valid.nodup.not_mem_erase (heq ▸ hn)⟩
  refine ⟨t', T', hdel, ⟨hvalid, ?_, ?_⟩, helems, hsent⟩
  · have hsub : T'.toList.Sublist T.toList := by
      rw [helems]
      exact List.erase_sublist
    refine (h.sorted.sublist hsub).imp_of_mem fun hm hn hlt => ?_
    rwa [hkeys _ (hmem _ hm).2, hkeys _ (hmem _ hn).2]
  · intro n hn
    rw [hkeys n (hmem n hn).2]
    exact h.keys n (hmem n hn).1

end Ordered

end NginxDtls.CrcTree
