import NginxDtls.RadixTree

/-! What a radix tree holds, by the sides that lead to its nodes. A heap represents a set of paths; an insertion adds
the paths of one key, a deletion takes out a path and the ends of paths above it that have become useless. The freed
nodes are disjoint from the nodes of the tree. -/

namespace NginxDtls.Radix

namespace RadixTree

variable (t : RadixTree) (n m : ℕ)

/-! ### Reading behind a write -/

theorem node_put (x : RadixNode) : (t.put n x).node m = if m = n then x else t.node m :=
  Function.update_apply t.node n x m

theorem node_put_self (x : RadixNode) : (t.put n x).node n = x := by rw [node_put, if_pos rfl]

@[simp]
theorem root_put (x : RadixNode) : (t.put n x).root = t.root := rfl

@[simp]
theorem free_put (x : RadixNode) : (t.put n x).free = t.free := rfl

@[simp]
theorem start_put (x : RadixNode) : (t.put n x).start = t.start := rfl

@[simp]
theorem child_setChild (side side' : Bool) (c : Option ℕ) :
    (t.setChild n side c).child m side' = if m = n ∧ side' = side then c else t.child m side' := by
  unfold setChild child
  cases side <;> cases side' <;> simp [node_put] <;> split <;> simp_all

@[simp]
theorem parent_setChild (side : Bool) (c : Option ℕ) :
    ((t.setChild n side c).node m).parent = (t.node m).parent := by
  unfold setChild
  cases side <;> simp [node_put] <;> split <;> simp_all

@[simp]
theorem value_setChild (side : Bool) (c : Option ℕ) : ((t.setChild n side c).node m).value = (t.node m).value := by
  unfold setChild
  cases side <;> simp [node_put] <;> split <;> simp_all

@[simp]
theorem root_setChild (side : Bool) (c : Option ℕ) : (t.setChild n side c).root = t.root := by cases side <;> rfl

@[simp]
theorem free_setChild (side : Bool) (c : Option ℕ) : (t.setChild n side c).free = t.free := by cases side <;> rfl

@[simp]
theorem start_setChild (side : Bool) (c : Option ℕ) : (t.setChild n side c).start = t.start := by cases side <;> rfl

@[simp]
theorem child_setValue (value : UInt64) (side : Bool) : (t.setValue n value).child m side = t.child m side := by
  unfold setValue child
  rw [node_put]
  by_cases hm : m = n
  · rw [if_pos hm, hm]
  · rw [if_neg hm]

@[simp]
theorem parent_setValue (value : UInt64) : ((t.setValue n value).node m).parent = (t.node m).parent := by
  unfold setValue
  simp only [node_put]
  split <;> simp_all

@[simp]
theorem value_setValue (value : UInt64) :
    ((t.setValue n value).node m).value = if m = n then value else (t.node m).value := by
  unfold setValue
  simp only [node_put]
  split <;> rfl

theorem child_put_new (parent : Option ℕ) (value : UInt64) (side : Bool) :
    (t.put n ⟨none, none, parent, value⟩).child m side = if m = n then none else t.child m side := by
  unfold child
  rw [node_put]
  by_cases hm : m = n
  · rw [if_pos hm, if_pos hm]
    exact ite_self none
  · rw [if_neg hm, if_neg hm]

end RadixTree

/-! ### Paths -/

/-- The nodes of a tree by the sides that lead to them, the last one first. -/
abbrev Paths : Type := List Bool → Option ℕ

/-- The list of freed nodes. -/
def FreeList (t : RadixTree) : Option ℕ → List ℕ → Prop
  | ptr, [] => ptr = none
  | ptr, n :: l => ptr = some n ∧ FreeList t (t.child n true) l

theorem FreeList.congr {t t' : RadixTree} {ptr : Option ℕ} {l : List ℕ} (h : FreeList t ptr l)
    (hsame : ∀ n ∈ l, t'.child n true = t.child n true) : FreeList t' ptr l := by
  induction l generalizing ptr with
  | nil => exact h
  | cons n l ih =>
      refine ⟨h.1, ?_⟩
      rw [hsame n List.mem_cons_self]
      exact ih h.2 fun m hm => hsame m (List.mem_cons_of_mem n hm)

/-- The heap has the nodes of the paths, none longer than `width`, and the list of freed nodes. -/
structure Rep (width : ℕ) (t : RadixTree) (P : Paths) (freed : List ℕ) : Prop where
  root : P [] = some t.root
  top : (t.node t.root).parent = none
  child : ∀ {p n}, P p = some n → ∀ side, t.child n side = P (side :: p)
  parent : ∀ {side p n m}, P p = some n → P (side :: p) = some m → (t.node m).parent = some n
  inj : ∀ {p q n}, P p = some n → P q = some n → p = q
  closed : ∀ {p}, P p = none → ∀ side, P (side :: p) = none
  deep : ∀ {p n}, P p = some n → p.length ≤ width
  free : FreeList t t.free freed
  nodup : freed.Nodup
  apart : ∀ {p n}, P p = some n → n ∉ freed
  used : ∀ {p n}, P p = some n → n < t.start
  below : ∀ n ∈ freed, n < t.start

/-- A value that is stored in a node. -/
def storedValue (value : UInt64) : Option UInt64 := if value = radixNoValue then none else some value

/-- What is stored at the end of a path. -/
def valueAt (t : RadixTree) (P : Paths) (p : List Bool) : Option UInt64 :=
  (P p).bind fun n => storedValue (t.node n).value

theorem storedValue_eq_none {value : UInt64} : storedValue value = none ↔ value = radixNoValue := by
  rw [storedValue]
  split <;> simp_all

theorem valueAt_of_some {t : RadixTree} {P : Paths} {p : List Bool} {n : ℕ} (h : P p = some n) :
    valueAt t P p = storedValue (t.node n).value := by
  rw [valueAt, h]
  rfl

theorem valueAt_of_none {t : RadixTree} {P : Paths} {p : List Bool} (h : P p = none) : valueAt t P p = none := by
  rw [valueAt, h]
  rfl

namespace Rep

variable {width : ℕ} {t : RadixTree} {P : Paths} {freed : List ℕ}

theorem mono (h : Rep width t P freed) {width' : ℕ} (hle : width ≤ width') : Rep width' t P freed :=
  { h with deep := fun hp => (h.deep hp).trans hle }

/-- Below a pointer that is `NULL` there is nothing. -/
theorem closed_append (h : Rep width t P freed) {p : List Bool} (hp : P p = none) (q : List Bool) :
    P (q ++ p) = none := by
  induction q with
  | nil => exact hp
  | cons side q ih => exact h.closed ih side

/-! ### Values -/

theorem setValue (h : Rep width t P freed) (n : ℕ) (value : UInt64) : Rep width (t.setValue n value) P freed where
  root := h.root
  top := by
    rw [RadixTree.parent_setValue]
    exact h.top
  child hp side := by
    rw [RadixTree.child_setValue]
    exact h.child hp side
  parent hp hq := by
    rw [RadixTree.parent_setValue]
    exact h.parent hp hq
  inj := h.inj
  closed := h.closed
  deep := h.deep
  free := FreeList.congr h.free fun m _ => RadixTree.child_setValue ..
  nodup := h.nodup
  apart := h.apart
  used := h.used
  below := h.below

theorem valueAt_setValue (h : Rep width t P freed) {p : List Bool} {n : ℕ} (hp : P p = some n) (value : UInt64) :
    valueAt (t.setValue n value) P = Function.update (valueAt t P) p (storedValue value) := by
  funext q
  by_cases hq : q = p
  · rw [hq, Function.update_self, valueAt_of_some hp, RadixTree.value_setValue, if_pos rfl]
  · rw [Function.update_of_ne hq]
    unfold valueAt
    cases hm : P q with
    | none => rfl
    | some m =>
        have hne : m ≠ n := fun heq => hq (h.inj hm (heq ▸ hp))
        rw [Option.bind_some, Option.bind_some, RadixTree.value_setValue, if_neg hne]

/-! ### Allocation -/

/-- `ngx_radix_alloc` gives a node that is neither in the tree nor freed. -/
theorem alloc (h : Rep width t P freed) {pagesize pages pages' n : ℕ} {t' : RadixTree}
    (hrun : t.alloc pagesize pages = some (n, t', pages')) :
    ∃ freed', Rep width t' P freed' ∧ n ∉ freed' ∧ (∀ p, P p ≠ some n) ∧ n < t'.start ∧
      valueAt t' P = valueAt t P := by
  have hnew : ∀ size, Rep width { t with start := t.start + 1, size } P freed ∧ t.start ∉ freed ∧
      (∀ p, P p ≠ some t.start) ∧ valueAt { t with start := t.start + 1, size } P = valueAt t P := fun size =>
    ⟨{ h with
        free := FreeList.congr h.free fun _ _ => rfl
        used := fun hp => Nat.lt_succ_of_lt (h.used hp)
        below := fun n hn => Nat.lt_succ_of_lt (h.below n hn) },
      fun hmem => absurd (h.below _ hmem) (Nat.lt_irrefl _), fun p hp => absurd (h.used hp) (Nat.lt_irrefl _), rfl⟩
  unfold RadixTree.alloc at hrun
  split at hrun
  · rename_i p hfree
    cases hrun
    obtain ⟨l, rfl⟩ : ∃ l, freed = n :: l := by
      have hlist := h.free
      rw [hfree] at hlist
      cases freed with
      | nil => cases hlist
      | cons m l =>
          obtain ⟨heq, -⟩ := hlist
          cases heq
          exact ⟨l, rfl⟩
    obtain ⟨hnot, hnodup⟩ := List.nodup_cons.mp h.nodup
    refine ⟨l, ?_, hnot, fun p hp => h.apart hp List.mem_cons_self, h.below n List.mem_cons_self, rfl⟩
    exact { h with
      free := FreeList.congr h.free.2 fun _ _ => rfl
      nodup := hnodup
      apart := fun hp hmem => h.apart hp (List.mem_cons_of_mem _ hmem)
      below := fun m hm => h.below m (List.mem_cons_of_mem _ hm) }
  · split at hrun
    · split at hrun
      · cases hrun
      · cases hrun
        obtain ⟨hrep, hfreed, htree, hvalue⟩ := hnew (pagesize - radixNodeSize)
        exact ⟨freed, hrep, hfreed, htree, Nat.lt_succ_self _, hvalue⟩
    · cases hrun
      obtain ⟨hrep, hfreed, htree, hvalue⟩ := hnew (t.size - radixNodeSize)
      exact ⟨freed, hrep, hfreed, htree, Nat.lt_succ_self _, hvalue⟩

/-! ### A new leaf -/

section Grow

variable {p : List Bool} {n m : ℕ} {side : Bool}

/-- The heap with a new node without a value below another one. -/
def grown (t : RadixTree) (n m : ℕ) (side : Bool) : RadixTree :=
  (t.put m ⟨none, none, some n, radixNoValue⟩).setChild n side (some m)

theorem child_grown (hne : n ≠ m) (k : ℕ) (side' : Bool) : (grown t n m side).child k side' =
    if k = m then none else if k = n ∧ side' = side then some m else t.child k side' := by
  rw [grown, RadixTree.child_setChild, RadixTree.child_put_new]
  split_ifs with h₁ h₂ <;> simp_all

theorem parent_grown (k : ℕ) : ((grown t n m side).node k).parent = if k = m then some n else (t.node k).parent := by
  rw [grown, RadixTree.parent_setChild, RadixTree.node_put]
  split <;> rfl

theorem value_grown (k : ℕ) :
    ((grown t n m side).node k).value = if k = m then radixNoValue else (t.node k).value := by
  rw [grown, RadixTree.value_setChild, RadixTree.node_put]
  split <;> rfl

theorem grow (h : Rep width t P freed) (hp : P p = some n) (hnone : P (side :: p) = none) (hlength : p.length < width)
    (hfreed : m ∉ freed) (htree : ∀ q, P q ≠ some m) (hstart : m < t.start) :
    Rep width (grown t n m side) (Function.update P (side :: p) (some m)) freed := by
  have hne : n ≠ m := fun heq => htree p (heq ▸ hp)
  have hroot : t.root ≠ m := fun heq => htree [] (heq ▸ h.root)
  have hcons : ∀ s : Bool, p ≠ s :: p := fun s heq => absurd (congrArg List.length heq) (by simp)
  -- a path of the new tree is the new one or an old one
  have hold : ∀ {q k}, Function.update P (side :: p) (some m) q = some k →
      (q = side :: p ∧ k = m) ∨ (q ≠ side :: p ∧ P q = some k ∧ k ≠ m) := by
    intro q k hk
    by_cases hq : q = side :: p
    · subst hq
      rw [Function.update_self] at hk
      exact Or.inl ⟨rfl, (Option.some.inj hk).symm⟩
    · rw [Function.update_of_ne hq] at hk
      exact Or.inr ⟨hq, hk, fun heq => htree q (heq ▸ hk)⟩
  have hbelow : ∀ s, P (s :: side :: p) = none := h.closed hnone
  have hsame : ∀ s, Function.update P (side :: p) (some m) (s :: side :: p) = none := fun s => by
    rw [Function.update_of_ne (fun heq => absurd (congrArg List.length heq) (by simp))]
    exact hbelow s
  constructor
  · rw [Function.update_of_ne (by simp), grown, RadixTree.root_setChild]
    exact h.root
  · rw [parent_grown, grown, RadixTree.root_setChild, RadixTree.root_put, if_neg hroot]
    exact h.top
  · intro q k hk s
    rw [child_grown hne]
    rcases hold hk with ⟨rfl, rfl⟩ | ⟨hq, hkq, hkm⟩
    · rw [if_pos rfl, hsame]
    · rw [if_neg hkm]
      by_cases hkn : k = n
      · have hqp : q = p := h.inj hkq (hkn ▸ hp)
        by_cases hs : s = side
        · rw [if_pos ⟨hkn, hs⟩, hs, hqp, Function.update_self]
        · rw [if_neg (fun hand => hs hand.2), Function.update_of_ne fun heq => hs (List.cons.inj heq).1]
          exact h.child hkq s
      · have hqp : q ≠ p := fun heq => hkn (Option.some.inj (hkq.symm.trans (heq ▸ hp)))
        rw [if_neg (fun hand => hkn hand.1), Function.update_of_ne fun heq => hqp (List.cons.inj heq).2]
        exact h.child hkq s
  · intro s q k k' hk hk'
    rw [parent_grown]
    rcases hold hk' with ⟨heq, rfl⟩ | ⟨hq, hkq', hkm⟩
    · rw [(List.cons.inj heq).2, Function.update_of_ne (hcons _), hp] at hk
      rw [if_pos rfl, hk]
    · rw [if_neg hkm]
      rcases hold hk with ⟨rfl, rfl⟩ | ⟨-, hkq, -⟩
      · rw [hsame] at hk'
        cases hk'
      · exact h.parent hkq hkq'
  · intro q q' k hk hk'
    rcases hold hk with ⟨rfl, rfl⟩ | ⟨-, hk, hkm⟩ <;> rcases hold hk' with ⟨rfl, hkm'⟩ | ⟨-, hk', hkm'⟩
    · rfl
    · exact absurd rfl hkm'
    · exact absurd hkm' hkm
    · exact h.inj hk hk'
  · intro q hq s
    have hq' : q ≠ side :: p := fun heq => by
      rw [heq, Function.update_self] at hq
      cases hq
    rw [Function.update_of_ne hq'] at hq
    by_cases hs : s :: q = side :: p
    · rw [(List.cons.inj hs).2, hp] at hq
      cases hq
    · rw [Function.update_of_ne hs]
      exact h.closed hq s
  · intro q k hk
    rcases hold hk with ⟨rfl, -⟩ | ⟨-, hk, -⟩
    · exact hlength
    · exact h.deep hk
  · rw [grown, RadixTree.free_setChild]
    refine FreeList.congr h.free fun k hk => ?_
    have hkm : k ≠ m := fun heq => hfreed (heq ▸ hk)
    have hkn : k ≠ n := fun heq => h.apart hp (heq ▸ hk)
    rw [← grown, child_grown hne, if_neg hkm, if_neg fun hand => hkn hand.1]
  · exact h.nodup
  · intro q k hk
    rcases hold hk with ⟨-, rfl⟩ | ⟨-, hk, -⟩
    · exact hfreed
    · exact h.apart hk
  · intro q k hk
    rw [grown, RadixTree.start_setChild]
    rcases hold hk with ⟨-, rfl⟩ | ⟨-, hk, -⟩
    · exact hstart
    · exact h.used hk
  · rw [grown, RadixTree.start_setChild]
    exact h.below

theorem valueAt_grow (hnone : P (side :: p) = none) (htree : ∀ q, P q ≠ some m) :
    valueAt (grown t n m side) (Function.update P (side :: p) (some m)) = valueAt t P := by
  funext q
  by_cases hq : q = side :: p
  · rw [hq, valueAt_of_none hnone, valueAt_of_some (Function.update_self _ _ _), value_grown, if_pos rfl]
    rfl
  · unfold valueAt
    rw [Function.update_of_ne hq]
    cases hk : P q with
    | none => rfl
    | some k =>
        have hkm : k ≠ m := fun heq => htree q (heq ▸ hk)
        rw [Option.bind_some, Option.bind_some, value_grown, if_neg hkm]

end Grow

/-! ### A leaf that goes -/

section Unlink

variable {p : List Bool} {n parent : ℕ} {side : Bool}

theorem child_unlink (h : Rep width t P freed) (hparent : P p = some parent) (hn : P (side :: p) = some n) (k : ℕ)
    (side' : Bool) : (t.unlink parent n).child k side' =
      if k = n ∧ side' = true then t.free else if k = parent ∧ side' = side then none else t.child k side' := by
  have hside : decide ((t.node parent).right = some n) = side := by
    have hright : (t.node parent).right = P (true :: p) := h.child hparent true
    rw [hright]
    cases side with
    | true => exact decide_eq_true hn
    | false =>
        refine decide_eq_false fun heq => ?_
        cases h.inj heq hn
  rw [RadixTree.unlink, hside]
  have hleft : ∀ s, RadixTree.child { (t.setChild parent side none).put n
      { (t.setChild parent side none).node n with right := (t.setChild parent side none).free } with
      free := some n } k s = ((t.setChild parent side none).put n
      { (t.setChild parent side none).node n with right := (t.setChild parent side none).free }).child k s :=
    fun _ => rfl
  rw [hleft]
  by_cases hk : k = n
  · subst hk
    have hput := RadixTree.node_put_self (t.setChild parent side none) k
      { (t.setChild parent side none).node k with right := (t.setChild parent side none).free }
    cases side' with
    | true =>
        rw [if_pos ⟨rfl, rfl⟩, RadixTree.child, hput]
        exact RadixTree.free_setChild ..
    | false =>
        rw [if_neg (by simp), RadixTree.child, hput, ← RadixTree.child_setChild]
        rfl
  · rw [if_neg fun hand => hk hand.1, ← RadixTree.child_setChild]
    unfold RadixTree.child
    rw [RadixTree.node_put, if_neg hk]

theorem parent_unlink (k : ℕ) : ((t.unlink parent n).node k).parent = (t.node k).parent := by
  unfold RadixTree.unlink
  dsimp only
  rw [RadixTree.node_put]
  split
  · rename_i hk
    rw [hk]
    exact RadixTree.parent_setChild ..
  · exact RadixTree.parent_setChild ..

theorem value_unlink (k : ℕ) : ((t.unlink parent n).node k).value = (t.node k).value := by
  unfold RadixTree.unlink
  dsimp only
  rw [RadixTree.node_put]
  split
  · rename_i hk
    rw [hk]
    exact RadixTree.value_setChild ..
  · exact RadixTree.value_setChild ..

theorem root_unlink : (t.unlink parent n).root = t.root := RadixTree.root_setChild ..

theorem start_unlink : (t.unlink parent n).start = t.start := RadixTree.start_setChild ..

theorem unlink (h : Rep width t P freed) (hparent : P p = some parent) (hn : P (side :: p) = some n)
    (hleaf : ∀ s, P (s :: side :: p) = none) :
    Rep width (t.unlink parent n) (Function.update P (side :: p) none) (n :: freed) := by
  have hold : ∀ {q k}, Function.update P (side :: p) none q = some k → q ≠ side :: p ∧ P q = some k ∧ k ≠ n := by
    intro q k hk
    by_cases hq : q = side :: p
    · rw [hq, Function.update_self] at hk
      cases hk
    · rw [Function.update_of_ne hq] at hk
      exact ⟨hq, hk, fun heq => hq (h.inj hk (heq ▸ hn))⟩
  constructor
  · rw [Function.update_of_ne (by simp), root_unlink]
    exact h.root
  · rw [root_unlink, parent_unlink]
    exact h.top
  · intro q k hk s
    obtain ⟨hq, hkq, hkn⟩ := hold hk
    rw [child_unlink h hparent hn, if_neg fun hand => hkn hand.1]
    by_cases hs : s :: q = side :: p
    · obtain ⟨hside, hqp⟩ := List.cons.inj hs
      rw [hqp] at hkq
      rw [if_pos ⟨Option.some.inj (hkq.symm.trans hparent), hside⟩, hs, Function.update_self]
    · have hother : ¬(k = parent ∧ s = side) := fun hand => hs (by rw [hand.2, h.inj hkq (hand.1 ▸ hparent)])
      rw [Function.update_of_ne hs, if_neg hother]
      exact h.child hkq s
  · intro s q k k' hk hk'
    rw [parent_unlink]
    exact h.parent (hold hk).2.1 (hold hk').2.1
  · intro q q' k hk hk'
    exact h.inj (hold hk).2.1 (hold hk').2.1
  · intro q hq s
    by_cases hs : s :: q = side :: p
    · rw [hs, Function.update_self]
    · rw [Function.update_of_ne hs]
      by_cases hqp : q = side :: p
      · rw [hqp]
        exact hleaf s
      · rw [Function.update_of_ne hqp] at hq
        exact h.closed hq s
  · intro q k hk
    exact h.deep (hold hk).2.1
  · refine ⟨rfl, ?_⟩
    rw [child_unlink h hparent hn, if_pos ⟨rfl, rfl⟩]
    refine FreeList.congr h.free fun k hk => ?_
    have hkn : k ≠ n := fun heq => h.apart hn (heq ▸ hk)
    have hkp : k ≠ parent := fun heq => h.apart hparent (heq ▸ hk)
    rw [child_unlink h hparent hn, if_neg fun hand => hkn hand.1, if_neg fun hand => hkp hand.1]
  · exact List.nodup_cons.mpr ⟨h.apart hn, h.nodup⟩
  · intro q k hk
    obtain ⟨-, hk, hkn⟩ := hold hk
    exact fun hmem => (List.mem_cons.mp hmem).elim hkn (h.apart hk)
  · intro q k hk
    rw [start_unlink]
    exact h.used (hold hk).2.1
  · intro k hk
    rw [start_unlink]
    rcases List.mem_cons.mp hk with rfl | hk
    · exact h.used hn
    · exact h.below k hk

theorem valueAt_unlink :
    valueAt (t.unlink parent n) (Function.update P (side :: p) none) = Function.update (valueAt t P) (side :: p) none := by
  funext q
  by_cases hq : q = side :: p
  · rw [hq, Function.update_self, valueAt_of_none (Function.update_self _ _ _)]
  · unfold valueAt
    rw [Function.update_of_ne hq, Function.update_of_ne hq]
    cases hk : P q with
    | none => rfl
    | some k => rw [Option.bind_some, Option.bind_some, value_unlink]

end Unlink

end Rep

end NginxDtls.Radix
