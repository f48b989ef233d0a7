import NginxDtls.LimitConn
import Mathlib.Data.List.Lex
import Mathlib.Data.Prod.Lex

/-! One zone. Its tree is in the order of the checksum and the bytes of the keys, which the search and the insertion
follow, so that a node is found by its key also where checksums collide; and its counters are the numbers of the
cleanup records. -/

namespace NginxDtls.LimitConn

open Zipper RbTree

/-! ### The order of keys -/

@[simp] theorem memn2cmp_nil_nil : ngxMemn2cmp [] [] = .eq := rfl

@[simp] theorem memn2cmp_nil_cons (c : UInt8) (s : List UInt8) : ngxMemn2cmp [] (c :: s) = .lt := by
  simp [ngxMemn2cmp, ngxMemcmp]

@[simp] theorem memn2cmp_cons_nil (c : UInt8) (s : List UInt8) : ngxMemn2cmp (c :: s) [] = .gt := by
  simp [ngxMemn2cmp, ngxMemcmp]

theorem memn2cmp_cons_cons (c1 c2 : UInt8) (s1 s2 : List UInt8) :
    ngxMemn2cmp (c1 :: s1) (c2 :: s2) = if c1 < c2 then .lt else if c2 < c1 then .gt else ngxMemn2cmp s1 s2 := by
  rw [ngxMemn2cmp, ngxMemn2cmp]
  by_cases hle : s1.length ≤ s2.length
  · simp only [List.length_cons, Nat.add_le_add_iff_right, hle, if_true, List.take_succ_cons, ngxMemcmp,
      Nat.add_right_cancel_iff]
    split_ifs <;> simp_all
  · simp only [List.length_cons, Nat.add_le_add_iff_right, hle, if_false, List.take_succ_cons, ngxMemcmp,
      Nat.add_right_cancel_iff]
    split_ifs <;> simp_all

/-- The bytes of a key as numbers, which are in the lexicographic order. -/
def numbers (s : List UInt8) : List ℕ := s.map UInt8.toNat

theorem memn2cmp_lt_iff {s1 s2 : List UInt8} : ngxMemn2cmp s1 s2 = .lt ↔ numbers s1 < numbers s2 := by
  induction s1 generalizing s2 with
  | nil =>
    cases s2 with
    | nil => simp [numbers]
    | cons c s2 => simp [numbers]
  | cons c1 s1 ih =>
    cases s2 with
    | nil => simp [numbers]
    | cons c2 s2 =>
      rw [memn2cmp_cons_cons, numbers, numbers, List.map_cons, List.map_cons, List.cons_lt_cons_iff]
      simp only [UInt8.lt_iff_toNat_lt]
      rcases lt_trichotomy c1.toNat c2.toNat with hlt | heq | hgt
      · simp [hlt]
      · rw [if_neg (by omega), if_neg (by omega), ih]
        simp [heq, numbers]
      · rw [if_neg (by omega), if_pos hgt]
        simp only [reduceCtorEq, false_iff]
        omega

theorem memn2cmp_eq_iff {s1 s2 : List UInt8} : ngxMemn2cmp s1 s2 = .eq ↔ s1 = s2 := by
  induction s1 generalizing s2 with
  | nil => cases s2 <;> simp
  | cons c1 s1 ih =>
    cases s2 with
    | nil => simp
    | cons c2 s2 =>
      rw [memn2cmp_cons_cons, List.cons.injEq]
      rcases lt_trichotomy c1.toNat c2.toNat with hlt | heq | hgt
      · rw [if_pos (UInt8.lt_iff_toNat_lt.mpr hlt)]
        have hne : c1 ≠ c2 := fun h => absurd hlt (by rw [h]; exact lt_irrefl _)
        simp [hne]
      · have heq := UInt8.toNat_inj.mp heq
        subst heq
        rw [if_neg (UInt8.lt_irrefl c1), if_neg (UInt8.lt_irrefl c1), ih]
        simp
      · rw [if_neg (by rw [UInt8.lt_iff_toNat_lt]; omega), if_pos (UInt8.lt_iff_toNat_lt.mpr hgt)]
        have hne : c1 ≠ c2 := fun h => absurd hgt (by rw [h]; exact lt_irrefl _)
        simp [hne]

/-- The place of a key in the order. -/
def place (hash : ℕ) (key : List UInt8) : ℕ ×ₗ List ℕ := toLex (hash, numbers key)

theorem place_lt {h1 h2 : ℕ} {k1 k2 : List UInt8} :
    place h1 k1 < place h2 k2 ↔ h1 < h2 ∨ h1 = h2 ∧ ngxMemn2cmp k1 k2 = .lt := by
  rw [place, place, Prod.Lex.toLex_lt_toLex, memn2cmp_lt_iff]

theorem place_eq {h1 h2 : ℕ} {k1 k2 : List UInt8} : place h1 k1 = place h2 k2 ↔ h1 = h2 ∧ k1 = k2 := by
  rw [place, place, EmbeddingLike.apply_eq_iff_eq, Prod.mk.injEq]
  refine and_congr_right fun _ => ⟨fun h => ?_, fun h => by rw [h]⟩
  exact List.map_injective_iff.mpr (fun a b hab => UInt8.toNat_inj.mp hab) h

/-- The place of a node. -/
def Zone.place (zone : Zone) (node : ℕ) : ℕ ×ₗ List ℕ := LimitConn.place (zone.rbtree.key node) (zone.node node).data

theorem Zone.goesLeft_iff {zone : Zone} {node temp : ℕ} :
    zone.goesLeft zone.rbtree.key node temp = true ↔ zone.place node < zone.place temp := by
  rw [Zone.place, Zone.place, place_lt, Zone.goesLeft]
  rcases lt_trichotomy (zone.rbtree.key node) (zone.rbtree.key temp) with hlt | heq | hgt
  · simp [hlt]
  · simp [heq]
  · rw [if_neg (by omega), if_pos hgt]
    simp only [Bool.false_eq_true, false_iff]
    omega

/-! ### Searching -/

section Lookup

variable {zone : Zone} {key : List UInt8} {hash : ℕ} {T : BTree ℕ} {path : List (Frame ℕ)}

/-- Where no node of the subtree has the key, the search ends without one. -/
theorem lookupFrom_none (fuel : ℕ) (h : zone.rbtree.Rep T path)
    (hno : ∀ n ∈ T.toList, zone.place n ≠ place hash key) (hfuel : T.toList.length < fuel) :
    lookupFrom zone key hash fuel (ptr zone.rbtree.sentinel T) = some none := by
  induction fuel generalizing T path with
  | zero => exact absurd hfuel (Nat.not_lt_zero _)
  | succ fuel ih =>
      cases T with
      | leaf => rw [lookupFrom, if_pos (by rfl)]
      | node red l x r =>
          have hx : x ≠ zone.rbtree.sentinel := Rep.ne_sentinel (d := .left) h
          have hl : zone.rbtree.Rep l (⟨.left, red, x, r⟩ :: path) := rep_cons.mpr h
          have hr : zone.rbtree.Rep r (⟨.right, red, x, l⟩ :: path) := rep_cons.mpr h
          have hleft : zone.rbtree.child .left x = ptr zone.rbtree.sentinel l := h.links.2.1
          have hright : zone.rbtree.child .right x = ptr zone.rbtree.sentinel r := h.links.2.2.1
          simp only [BTree.toList, List.length_append, List.length_cons] at hfuel
          have ihl := ih hl (fun n hn => hno n (by simp [BTree.toList, hn])) (by omega)
          have ihr := ih hr (fun n hn => hno n (by simp [BTree.toList, hn])) (by omega)
          rw [ptr, lookupFrom, if_neg hx, hleft, hright, ihl, ihr]
          rcases lt_trichotomy hash (zone.rbtree.key x) with hlt | heq | hgt
          · rw [if_pos hlt]
          · have hne : ngxMemn2cmp key (zone.node x).data ≠ .eq := fun hcmp =>
              hno x (by simp [BTree.toList]) (place_eq.mpr ⟨heq.symm, (memn2cmp_eq_iff.mp hcmp).symm⟩)
            rw [if_neg (by omega), if_neg (by omega)]
            simp only [hne, if_false]
            split
            · exact ihl
            · exact ihr
          · rw [if_neg (by omega), if_pos hgt]

/-- In a subtree in order the search finds the node with the key. -/
theorem lookupFrom_found (fuel : ℕ) (h : zone.rbtree.Rep T path)
    (hsorted : T.toList.Pairwise fun m n => zone.place m < zone.place n) {z : ℕ} (hz : z ∈ T.toList)
    (hplace : zone.place z = place hash key) (hfuel : T.toList.length < fuel) :
    lookupFrom zone key hash fuel (ptr zone.rbtree.sentinel T) = some (some z) := by
  induction fuel generalizing T path with
  | zero => exact absurd hfuel (Nat.not_lt_zero _)
  | succ fuel ih =>
      cases T with
      | leaf => exact absurd hz List.not_mem_nil
      | node red l x r =>
          have hx : x ≠ zone.rbtree.sentinel := Rep.ne_sentinel (d := .left) h
          have hl : zone.rbtree.Rep l (⟨.left, red, x, r⟩ :: path) := rep_cons.mpr h
          have hr : zone.rbtree.Rep r (⟨.right, red, x, l⟩ :: path) := rep_cons.mpr h
          have hleft : zone.rbtree.child .left x = ptr zone.rbtree.sentinel l := h.links.2.1
          have hright : zone.rbtree.child .right x = ptr zone.rbtree.sentinel r := h.links.2.2.1
          simp only [BTree.toList, List.length_append, List.length_cons] at hfuel
          simp only [BTree.toList, List.pairwise_append, List.pairwise_cons, List.mem_cons] at hsorted
          obtain ⟨sl, ⟨hxr, sr⟩, hlx⟩ := hsorted
          simp only [BTree.toList, List.mem_append, List.mem_cons] at hz
          rw [ptr, lookupFrom, if_neg hx, hleft, hright]
          rcases hz with hz | rfl | hz
          · -- the key lies before that of the node
            have hlt := hlx z hz x (.inl rfl)
            rw [hplace, Zone.place, place_lt] at hlt
            rcases hlt with hlt | ⟨heq, hcmp⟩
            · rw [if_pos hlt]
              exact ih hl sl hz (by omega)
            · rw [if_neg (by omega), if_neg (by omega)]
              simp only [hcmp, reduceCtorEq, if_false, if_true]
              exact ih hl sl hz (by omega)
          · obtain ⟨hkey, hdata⟩ := place_eq.mp hplace
            rw [if_neg (by omega), if_neg (by omega), hdata]
            simp only [memn2cmp_eq_iff.mpr rfl, if_true]
          · have hgt := hxr z hz
            rw [hplace] at hgt
            by_cases hkey : hash > zone.rbtree.key x
            · rw [if_neg (by omega), if_pos hkey]
              exact ih hr sr hz (by omega)
            · -- among equal checksums the key lies behind that of the node
              have heq : zone.rbtree.key x = hash := by
                rcases place_lt.mp hgt with hlt | hsame
                · omega
                · exact hsame.1
              have hlt : ngxMemn2cmp key (zone.node x).data ≠ .lt := fun hcmp =>
                lt_asymm hgt (place_lt.mpr (Or.inr ⟨heq.symm, hcmp⟩))
              have hne : ngxMemn2cmp key (zone.node x).data ≠ .eq := fun hcmp =>
                hgt.ne (place_eq.mpr ⟨heq, (memn2cmp_eq_iff.mp hcmp).symm⟩)
              rw [if_neg (by omega), if_neg hkey]
              simp only [hlt, hne, if_false]
              exact ih hr sr hz (by omega)

end Lookup

/-! ### What holds of a zone -/

/-- The tree is in order, with the allocated nodes under the checksums of their keys; a node has as many connections as
there are records `held` for it, within the limit of the last one, and no other node has records. -/
structure Zone.Inv (zone : Zone) (T : BTree ℕ) (held : ℕ → ℕ) : Prop where
  valid : zone.rbtree.Valid T
  nodes : T.toList.Perm zone.used
  sorted : T.toList.Pairwise fun m n => zone.place m < zone.place n
  keys : ∀ n ∈ T.toList, zone.rbtree.key n = (ngxCrc32Short (zone.node n).data).toNat
  sentinel : zone.rbtree.sentinel = limitConnSentinel
  conn : ∀ n ∈ T.toList, (zone.node n).conn = held n ∧ 0 < held n
  limit : ∀ n ∈ T.toList, (zone.node n).conn ≤ (zone.node n).limit ∧ (zone.node n).limit ≤ 65535
  rest : ∀ n, n ∉ T.toList → held n = 0

/-- Where a key has its place in a zone. -/
def keyPlace (key : List UInt8) : ℕ ×ₗ List ℕ := place (ngxCrc32Short key).toNat key

namespace Zone.Inv

variable {zone : Zone} {T : BTree ℕ} {held : ℕ → ℕ}

theorem length (h : zone.Inv T held) : T.toList.length = zone.used.length := h.nodes.length_eq

theorem mem_of_held (h : zone.Inv T held) {n : ℕ} (hn : 0 < held n) : n ∈ T.toList := by
  by_contra hout
  exact absurd (h.rest n hout) (Nat.pos_iff_ne_zero.mp hn)

theorem place_eq_iff (h : zone.Inv T held) {n : ℕ} (hn : n ∈ T.toList) {key : List UInt8} :
    zone.place n = keyPlace key ↔ (zone.node n).data = key := by
  rw [Zone.place, keyPlace, place_eq, h.keys n hn]
  exact ⟨fun heq => heq.2, fun heq => ⟨by rw [heq], heq⟩⟩

/-- Two nodes have different keys. -/
theorem node_unique (h : zone.Inv T held) {m n : ℕ} (hm : m ∈ T.toList) (hn : n ∈ T.toList)
    (hdata : (zone.node m).data = (zone.node n).data) : m = n := by
  by_contra hne
  have hplace : zone.place m = zone.place n :=
    ((h.place_eq_iff hm).mpr hdata).trans ((h.place_eq_iff hn).mpr rfl).symm
  have hsymm : Std.Symm fun a b => zone.place a ≠ zone.place b := ⟨fun _ _ hab => hab.symm⟩
  have hdistinct : T.toList.Pairwise fun a b => zone.place a ≠ zone.place b := h.sorted.imp fun hlt => hlt.ne
  exact hdistinct.forall hm hn hne hplace

theorem lookup_found (h : zone.Inv T held) {n : ℕ} (hn : n ∈ T.toList) :
    ngxStreamLimitConnLookup zone (zone.node n).data = some (some n) := by
  have hroot : zone.rbtree.root = ptr zone.rbtree.sentinel T := h.valid.rep.path
  rw [ngxStreamLimitConnLookup, hroot]
  refine lookupFrom_found _ h.valid.rep h.sorted hn ((h.place_eq_iff hn).mpr rfl) ?_
  rw [h.length, fuel]
  omega

theorem lookup_none (h : zone.Inv T held) {key : List UInt8} (hno : ∀ n ∈ T.toList, (zone.node n).data ≠ key) :
    ngxStreamLimitConnLookup zone key = some none := by
  have hroot : zone.rbtree.root = ptr zone.rbtree.sentinel T := h.valid.rep.path
  rw [ngxStreamLimitConnLookup, hroot]
  refine lookupFrom_none _ h.valid.rep (fun n hn hplace => hno n hn ((h.place_eq_iff hn).mp hplace)) ?_
  rw [h.length, fuel]
  omega

/-- The search gives the node of the key, or there is none. -/
theorem lookup_cases (h : zone.Inv T held) (key : List UInt8) :
    (ngxStreamLimitConnLookup zone key = some none ∧ ∀ n ∈ T.toList, (zone.node n).data ≠ key) ∨
      ∃ n ∈ T.toList, (zone.node n).data = key ∧ ngxStreamLimitConnLookup zone key = some (some n) := by
  by_cases hex : ∃ n ∈ T.toList, (zone.node n).data = key
  · obtain ⟨n, hn, rfl⟩ := hex
    exact Or.inr ⟨n, hn, rfl, h.lookup_found hn⟩
  · have hno : ∀ n ∈ T.toList, (zone.node n).data ≠ key := fun n hn hdata => hex ⟨n, hn, hdata⟩
    exact Or.inl ⟨h.lookup_none hno, hno⟩

/-- A node for a new key. -/
theorem insert (h : zone.Inv T held) {key : List UInt8} (hno : ∀ n ∈ T.toList, (zone.node n).data ≠ key) {node limit : ℕ}
    (hnode : node ≠ limitConnSentinel ∧ node ∉ zone.used) (hlimit : 0 < limit ∧ limit ≤ 65535) :
    ∃ zone' T', zone.insert key node limit = some zone' ∧
      zone'.Inv T' (fun n => if n = node then held n + 1 else held n) ∧ (zone'.node node).data = key ∧
      ∀ n ∈ T.toList, zone'.node n = zone.node n := by
  have hout : node ∉ T.toList := fun hmem => hnode.2 (h.nodes.mem_iff.mp hmem)
  have hother : ∀ n ∈ T.toList, n ≠ node := fun n hn heq => hout (heq ▸ hn)
  let zone₁ : Zone := { zone with
    node := Function.update zone.node node ⟨key, 1, limit⟩
    rbtree := zone.rbtree.setKey node (ngxCrc32Short key).toNat }
  have hdata : ∀ n ∈ T.toList, zone₁.node n = zone.node n := fun n hn => Function.update_of_ne (hother n hn) ..
  have hnew : zone₁.node node = ⟨key, 1, limit⟩ := Function.update_self ..
  have hkeys : ∀ n ∈ T.toList, zone₁.rbtree.key n = zone.rbtree.key n := fun n hn => by
    show (zone.rbtree.setKey node _).key n = _
    rw [setKey_key, if_neg (hother n hn)]
  have hkey : zone₁.rbtree.key node = (ngxCrc32Short key).toNat := by
    show (zone.rbtree.setKey node _).key node = _
    rw [setKey_key, if_pos rfl]
  have hplace : ∀ n ∈ T.toList, zone₁.place n = zone.place n := fun n hn => by
    rw [Zone.place, Zone.place, hkeys n hn, hdata n hn]
  have hplaceNew : zone₁.place node = keyPlace key := by rw [Zone.place, hkey, hnew, keyPlace]
  have hne : ∀ n ∈ T.toList, zone₁.place n ≠ zone₁.place node := fun n hn heq => by
    rw [hplace n hn, hplaceNew, h.place_eq_iff hn] at heq
    exact hno n hn heq
  have : IsTrans ℕ fun m n => zone₁.place m < zone₁.place n := ⟨fun _ _ _ => lt_trans⟩
  have hsorted : T.toList.Pairwise fun m n => zone₁.place m < zone₁.place n :=
    h.sorted.imp_of_mem fun hm hn hlt => by rwa [hplace _ hm, hplace _ hn]
  have hbelow : ngxStreamLimitConnRbtreeInsertValue zone₁ zone.fuel zone₁.rbtree zone₁.rbtree.root node =
      rbtreeInsertBelow (zone₁.goesLeft zone₁.rbtree.key) zone.fuel zone₁.rbtree zone₁.rbtree.root node := rfl
  have hfuel : T.toList.length < zone.fuel := by
    rw [h.length, fuel]
    omega
  obtain ⟨t', T', hins, hvalid, hperm, hsorted', hkeys', hsent⟩ :=
    (h.valid.setKey node (ngxCrc32Short key).toNat).insert_sorted hbelow hout (by
      show node ≠ zone.rbtree.sentinel
      rw [h.sentinel]
      exact hnode.1) hfuel hsorted
      (fun y hy hgo => by
        have hnot := mt Zone.goesLeft_iff.mpr (by rw [hgo]; exact Bool.false_ne_true)
        exact lt_of_le_of_ne (not_lt.mp hnot) (hne y hy))
      (fun y _ hgo => Zone.goesLeft_iff.mp hgo)
  have hmem : ∀ n, n ∈ T'.toList ↔ n = node ∨ n ∈ T.toList := fun n => by
    rw [hperm.mem_iff, List.mem_cons]
  have hrep : ∀ n, t'.key n = zone₁.rbtree.key n := fun n => by rw [hkeys']
  refine ⟨{ zone₁ with rbtree := t', used := node :: zone.used }, T', ?_, ?_, ?_, hdata⟩
  · rw [Zone.insert]
    have hins' : ngxRbtreeInsert (ngxStreamLimitConnRbtreeInsertValue
        { zone with node := Function.update zone.node node ⟨key, 1, limit⟩ })
        (Zone.fuel { zone with node := Function.update zone.node node ⟨key, 1, limit⟩ })
        (zone.rbtree.setKey node (ngxCrc32Short key).toNat) node = some t' := hins
    simp only [hins', Option.bind_eq_bind, Option.bind_some]
    rfl
  · refine ⟨hvalid, hperm.trans (h.nodes.cons node), ?_, ?_, hsent.trans h.sentinel, ?_, ?_, ?_⟩
    · refine hsorted'.imp fun hlt => ?_
      rw [Zone.place, Zone.place] at hlt ⊢
      rwa [hrep, hrep]
    · intro n hn
      show t'.key n = (ngxCrc32Short (zone₁.node n).data).toNat
      rw [hrep]
      rcases (hmem n).mp hn with rfl | hn
      · rw [hkey, hnew]
      · rw [hkeys n hn, hdata n hn]
        exact h.keys n hn
    · intro n hn
      show (zone₁.node n).conn = _ ∧ _
      rcases (hmem n).mp hn with rfl | hn
      · rw [hnew, if_pos rfl, h.rest n hout]
        exact ⟨rfl, Nat.one_pos⟩
      · rw [hdata n hn, if_neg (hother n hn)]
        exact h.conn n hn
    · intro n hn
      show (zone₁.node n).conn ≤ (zone₁.node n).limit ∧ _
      rcases (hmem n).mp hn with rfl | hn
      · rw [hnew]
        exact hlimit
      · rw [hdata n hn]
        exact h.limit n hn
    · intro n hn
      have hnot := mt (hmem n).mpr hn
      rw [not_or] at hnot
      rw [if_neg hnot.1]
      exact h.rest n hnot.2
  · show (zone₁.node node).data = key
    rw [hnew]

/-- One more connection at a node that has not reached the limit. -/
theorem enter (h : zone.Inv T held) {node limit : ℕ} (hnode : node ∈ T.toList) (hroom : (zone.node node).conn < limit)
    (hlimit : limit ≤ 65535) :
    (zone.enter node limit).Inv T (fun n => if n = node then held n + 1 else held n) ∧
      ∀ n, ((zone.enter node limit).node n).data = (zone.node n).data := by
  have hdata : ∀ n, ((zone.enter node limit).node n).data = (zone.node n).data := fun n => by
    by_cases hn : n = node
    · subst hn
      simp [Zone.enter]
    · simp [Zone.enter, hn]
  have hother : ∀ n, n ≠ node → (zone.enter node limit).node n = zone.node n := fun n hn => Function.update_of_ne hn ..
  have hself : (zone.enter node limit).node node =
      { zone.node node with conn := (zone.node node).conn + 1, limit := limit } := by
    simp only [Zone.enter, Function.update_self]
    rw [Nat.mod_eq_of_lt (by omega)]
  have hplace : ∀ n, (zone.enter node limit).place n = zone.place n := fun n => by
    rw [Zone.place, Zone.place, hdata]
    rfl
  refine ⟨⟨h.valid, h.nodes, ?_, ?_, h.sentinel, ?_, ?_, ?_⟩, hdata⟩
  · simp only [hplace]
    exact h.sorted
  · intro n hn
    rw [hdata]
    exact h.keys n hn
  · intro n hn
    by_cases heq : n = node
    · subst heq
      rw [hself, if_pos rfl, (h.conn n hn).1]
      exact ⟨rfl, Nat.succ_pos _⟩
    · rw [hother n heq, if_neg heq]
      exact h.conn n hn
  · intro n hn
    by_cases heq : n = node
    · subst heq
      rw [hself]
      exact ⟨hroom, hlimit⟩
    · rw [hother n heq]
      exact h.limit n hn
  · intro n hn
    have hne : n ≠ node := fun heq => hn (heq ▸ hnode)
    rw [if_neg hne]
    exact h.rest n hn

/-- A connection leaves its node, which goes with the last one. -/
theorem leave (h : zone.Inv T held) {node : ℕ} (hnode : 0 < held node) :
    ∃ zone' T', zone.leave node = some zone' ∧ zone'.Inv T' (fun n => if n = node then held n - 1 else held n) ∧
      ∀ n, (zone'.node n).data = (zone.node n).data := by
  have hmem := h.mem_of_held hnode
  obtain ⟨hconn, -⟩ := h.conn node hmem
  obtain ⟨hle, hmax⟩ := h.limit node hmem
  have hleft : ((zone.node node).conn + 65535) % 65536 = held node - 1 := by omega
  let zone₁ : Zone :=
    { zone with node := Function.update zone.node node { zone.node node with conn := held node - 1 } }
  have hdata : ∀ n, (zone₁.node n).data = (zone.node n).data := fun n => by
    by_cases hn : n = node
    · subst hn
      simp [zone₁]
    · simp [zone₁, hn]
  have hother : ∀ n, n ≠ node → zone₁.node n = zone.node n := fun n hn => Function.update_of_ne hn ..
  have hself : zone₁.node node = { zone.node node with conn := held node - 1 } := Function.update_self ..
  rw [Zone.leave]
  dsimp only
  rw [hleft]
  by_cases hzero : held node - 1 = 0
  · rw [if_pos hzero]
    have hfuel : T.toList.length + 1 < zone.fuel := by
      rw [h.length, fuel]
      omega
    obtain ⟨t', T', hdel, hvalid, helems, hkeys, hsent⟩ := h.valid.delete_sorted hmem hfuel
    have hmem' : ∀ n ∈ T'.toList, n ∈ T.toList ∧ n ≠ node := fun n hn => by
      rw [helems] at hn
      exact ⟨List.mem_of_mem_erase hn, fun heq => h.valid.nodup.not_mem_erase (heq ▸ hn)⟩
    have hplace : ∀ n ∈ T'.toList, Zone.place { zone₁ with rbtree := t' } n = zone.place n := fun n hn => by
      rw [Zone.place, Zone.place, hdata]
      show LimitConn.place (t'.key n) _ = _
      rw [hkeys n (hmem' n hn).2]
    have hdel' : ngxRbtreeDelete (Zone.fuel zone₁) zone.rbtree node = some t' := hdel
    refine ⟨{ zone₁ with rbtree := t', used := zone.used.erase node }, T', ?_, ?_, hdata⟩
    · show (ngxRbtreeDelete (Zone.fuel zone₁) zone.rbtree node).bind _ = _
      rw [hdel']
      rfl
    · refine ⟨hvalid, ?_, ?_, ?_, hsent.trans h.sentinel, ?_, ?_, ?_⟩
      · rw [helems]
        exact h.nodes.erase node
      · have hsub : T'.toList.Sublist T.toList := by
          rw [helems]
          exact List.erase_sublist
        refine (h.sorted.sublist hsub).imp_of_mem fun hm hn hlt => ?_
        have hm' := hplace _ hm
        have hn' := hplace _ hn
        rw [Zone.place] at hm' hn' ⊢
        rw [Zone.place]
        dsimp only at hm' hn' ⊢
        rwa [hm', hn']
      · intro n hn
        show t'.key n = (ngxCrc32Short (zone₁.node n).data).toNat
        rw [hkeys n (hmem' n hn).2, hdata]
        exact h.keys n (hmem' n hn).1
      · intro n hn
        show (zone₁.node n).conn = _ ∧ _
        rw [hother n (hmem' n hn).2, if_neg (hmem' n hn).2]
        exact h.conn n (hmem' n hn).1
      · intro n hn
        show (zone₁.node n).conn ≤ (zone₁.node n).limit ∧ _
        rw [hother n (hmem' n hn).2]
        exact h.limit n (hmem' n hn).1
      · intro n hn
        by_cases heq : n = node
        · rw [if_pos heq, heq, hzero]
        · rw [if_neg heq]
          refine h.rest n fun hin => hn ?_
          rw [helems]
          exact (List.mem_erase_of_ne heq).mpr hin
  · rw [if_neg hzero]
    have hplace : ∀ n, zone₁.place n = zone.place n := fun n => by
      rw [Zone.place, Zone.place, hdata]
    refine ⟨zone₁, T, rfl, ⟨h.valid, h.nodes, ?_, ?_, h.sentinel, ?_, ?_, ?_⟩, hdata⟩
    · simp only [hplace]
      exact h.sorted
    · intro n hn
      rw [hdata]
      exact h.keys n hn
    · intro n hn
      by_cases heq : n = node
      · subst heq
        rw [hself, if_pos rfl]
        exact ⟨rfl, Nat.pos_of_ne_zero hzero⟩
      · rw [hother n heq, if_neg heq]
        exact h.conn n hn
    · intro n hn
      by_cases heq : n = node
      · subst heq
        rw [hself]
        dsimp only
        exact ⟨by omega, hmax⟩
      · rw [hother n heq]
        exact h.limit n hn
    · intro n hn
      have hne : n ≠ node := fun heq => hn (heq ▸ hmem)
      rw [if_neg hne]
      exact h.rest n hn

end Zone.Inv

end NginxDtls.LimitConn
