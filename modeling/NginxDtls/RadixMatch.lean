import Mathlib.Data.Nat.Bitwise
import NginxDtls.RadixPaths
import NginxDtls.Run

/-! A radix tree is a table of prefixes: an insertion stores a value under a prefix unless there is one, a deletion
takes it out, and a search finds the value of the longest prefix that contains the address. -/

namespace NginxDtls.Radix

open Run

/-! ### Memory -/

namespace RadixTree

variable (t : RadixTree) (pagesize : ℕ)

/-- One page is enough for a node. -/
theorem alloc_of_pos {pages : ℕ} (h : 0 < pages) :
    ∃ n t' pages', t.alloc pagesize pages = some (n, t', pages') ∧ pages ≤ pages' + 1 := by
  obtain ⟨pages, rfl⟩ : ∃ k, pages = k + 1 := ⟨pages - 1, by omega⟩
  unfold alloc
  split
  · exact ⟨_, _, _, rfl, Nat.le_succ _⟩
  · split
    · exact ⟨_, _, _, rfl, Nat.le_refl _⟩
    · exact ⟨_, _, _, rfl, Nat.le_succ _⟩

/-- With a page for every side the second loop of the insertion comes to its end. -/
theorem extend_ok (value : UInt64) {sides : List Bool} {pages : ℕ} (h : sides.length ≤ pages) (node : ℕ) :
    (extend pagesize value t pages node sides).1 = .ok := by
  induction sides generalizing t pages node with
  | nil => rfl
  | cons side sides ih =>
      rw [List.length_cons] at h
      obtain ⟨next, t', pages', halloc, hle⟩ := t.alloc_of_pos pagesize (Nat.zero_lt_of_lt h)
      rw [extend, halloc]
      exact ih _ (by omega) _

theorem descend_length (node : ℕ) (sides : List Bool) : (t.descend node sides).2.length ≤ sides.length := by
  induction sides generalizing node with
  | nil => exact le_refl 0
  | cons side sides ih =>
      rw [descend]
      split
      · exact le_refl _
      · exact (ih _).trans (Nat.le_succ _)

/-- With a page for every side an insertion does not fail. -/
theorem insert_ne_error (value : UInt64) {sides : List Bool} {pages : ℕ} (h : sides.length ≤ pages) :
    (t.insert pagesize sides value pages).1 ≠ .error := by
  have hlength := t.descend_length t.root sides
  unfold insert
  split
  · split
    · exact fun heq => by cases heq
    · exact fun heq => by cases heq
  · rename_i node side sides' hdescend
    rw [hdescend] at hlength
    rw [extend_ok _ _ _ (hlength.trans h)]
    exact fun heq => by cases heq

end RadixTree

/-! ### What one call does to the paths -/

namespace Rep

variable {width : ℕ} {t : RadixTree} {P : Paths} {freed : List ℕ}

/-- The first loop ends at the last node on the way. -/
theorem descend (h : Rep width t P freed) {p : List Bool} {n : ℕ} (hp : P p = some n) (sides : List Bool) :
    ∃ taken rest m, t.descend n sides = (m, rest) ∧ sides = taken ++ rest ∧ P (taken.reverse ++ p) = some m ∧
      ∀ side sides', rest = side :: sides' → P (side :: (taken.reverse ++ p)) = none := by
  induction sides generalizing p n with
  | nil => exact ⟨[], [], n, rfl, rfl, hp, fun _ _ heq => by cases heq⟩
  | cons side sides ih =>
      have hchild := h.child hp side
      cases hnext : P (side :: p) with
      | none =>
          refine ⟨[], side :: sides, n, ?_, rfl, hp, fun side' sides' heq => ?_⟩
          · rw [RadixTree.descend, hchild, hnext]
          · rw [← (List.cons.inj heq).1]
            exact hnext
      | some next =>
          obtain ⟨taken, rest, m, hrun, hsides, hm, hrest⟩ := ih hnext
          refine ⟨side :: taken, rest, m, ?_, by rw [hsides]; rfl, ?_, fun side' sides' heq => ?_⟩
          · rw [RadixTree.descend, hchild, hnext]
            exact hrun
          · rw [List.reverse_cons, List.append_assoc]
            exact hm
          · rw [List.reverse_cons, List.append_assoc]
            exact hrest side' sides' heq

/-- The second loop adds the rest of the way, or as much of it as there is memory for. -/
theorem extend (h : Rep width t P freed) {p : List Bool} {n : ℕ} (hp : P p = some n) {sides : List Bool}
    (hnone : ∀ side sides', sides = side :: sides' → P (side :: p) = none) (hlength : p.length + sides.length ≤ width)
    (pagesize pages : ℕ) (value : UInt64) :
    ∃ P' freed', Rep width (RadixTree.extend pagesize value t pages n sides).2 P' freed' ∧
      ((RadixTree.extend pagesize value t pages n sides).1 = .ok ∧
          valueAt (RadixTree.extend pagesize value t pages n sides).2 P' =
            Function.update (valueAt t P) (sides.reverse ++ p) (storedValue value) ∨
        (RadixTree.extend pagesize value t pages n sides).1 = .error ∧
          valueAt (RadixTree.extend pagesize value t pages n sides).2 P' = valueAt t P) := by
  induction sides generalizing t P freed p n pages with
  | nil => exact ⟨P, freed, h.setValue n value, Or.inl ⟨rfl, h.valueAt_setValue hp value⟩⟩
  | cons side sides ih =>
      have hside := hnone side sides rfl
      rw [List.length_cons] at hlength
      unfold RadixTree.extend
      split
      · exact ⟨P, freed, h, Or.inr ⟨rfl, rfl⟩⟩
      · rename_i next t' pages' hrun
        obtain ⟨freed', hrep, hfreed, htree, hstart, hvalue⟩ := h.alloc hrun
        have hgrown : Rep width (grown t' n next side) (Function.update P (side :: p) (some next)) freed' :=
          hrep.grow hp hside (by omega) hfreed htree hstart
        have hrest : ∀ side' sides', sides = side' :: sides' →
            Function.update P (side :: p) (some next) (side' :: side :: p) = none := fun side' _ _ => by
          rw [Function.update_of_ne (fun heq => absurd (congrArg List.length heq) (by simp))]
          exact h.closed hside side'
        have hnew := ih hgrown (Function.update_self _ _ _) hrest (by rw [List.length_cons]; omega) pages'
        rw [valueAt_grow hside htree, hvalue] at hnew
        rw [List.reverse_cons, List.append_assoc]
        exact hnew

/-- An insertion finds the prefix stored and leaves the tree alone, or stores it, or lacks memory. -/
theorem insert (h : Rep width t P freed) {sides : List Bool} (hlength : sides.length ≤ width) (pagesize pages : ℕ)
    (value : UInt64) :
    (t.insert pagesize sides value pages = (.busy, t) ∧ valueAt t P sides.reverse ≠ none) ∨
    (valueAt t P sides.reverse = none ∧ ∃ P' freed', Rep width (t.insert pagesize sides value pages).2 P' freed' ∧
      ((t.insert pagesize sides value pages).1 = .ok ∧ valueAt (t.insert pagesize sides value pages).2 P' =
          Function.update (valueAt t P) sides.reverse (storedValue value) ∨
        (t.insert pagesize sides value pages).1 = .error ∧
          valueAt (t.insert pagesize sides value pages).2 P' = valueAt t P)) := by
  obtain ⟨taken, rest, m, hrun, rfl, hm, hrest⟩ := h.descend h.root sides
  rw [List.append_nil] at hm hrest
  unfold RadixTree.insert
  rw [hrun]
  cases rest with
  | nil =>
      rw [List.append_nil]
      dsimp only
      by_cases hvalue : (t.node m).value = radixNoValue
      · refine Or.inr ⟨by rw [valueAt_of_some hm]; exact storedValue_eq_none.mpr hvalue, P, freed, ?_⟩
        rw [if_neg (not_not_intro hvalue)]
        exact ⟨h.setValue m value, Or.inl ⟨rfl, h.valueAt_setValue hm value⟩⟩
      · refine Or.inl ⟨if_pos hvalue, ?_⟩
        rw [valueAt_of_some hm]
        exact mt storedValue_eq_none.mp hvalue
  | cons side sides =>
      have hnone := hrest side sides rfl
      rw [List.length_append, List.length_cons] at hlength
      refine Or.inr ⟨valueAt_of_none ?_, ?_⟩
      · rw [List.reverse_append, List.reverse_cons, List.append_assoc]
        exact h.closed_append hnone sides.reverse
      · rw [List.reverse_append]
        refine h.extend hm (fun side' sides' heq => ?_) (by rw [List.length_reverse, List.length_cons]; omega) _ _ _
        rw [← (List.cons.inj heq).1]
        exact hnone

theorem walk (h : Rep width t P freed) {p : List Bool} {n : ℕ} (hp : P p = some n) (sides : List Bool) :
    t.walk (some n) sides = P (sides.reverse ++ p) := by
  induction sides generalizing p n with
  | nil => exact hp.symm
  | cons side sides ih =>
      rw [RadixTree.walk, h.child hp, List.reverse_cons, List.append_assoc]
      cases hnext : P (side :: p) with
      | some next => exact ih hnext
      | none =>
          refine Eq.trans ?_ (h.closed_append hnext sides.reverse).symm
          cases sides <;> rfl

/-- The climb unlinks a leaf and then ancestors that hold nothing. -/
theorem prune (h : Rep width t P freed) {p : List Bool} {n fuel : ℕ} (hne : p ≠ []) (hp : P p = some n)
    (hleaf : ∀ side, P (side :: p) = none) (hfuel : p.length ≤ fuel) :
    ∃ t' P' freed', RadixTree.prune fuel t n = some t' ∧ Rep width t' P' freed' ∧
      valueAt t' P' = Function.update (valueAt t P) p none := by
  induction p generalizing t P freed n fuel with
  | nil => exact absurd rfl hne
  | cons side p ih =>
      rw [List.length_cons] at hfuel
      obtain ⟨fuel, rfl⟩ : ∃ f, fuel = f + 1 := ⟨fuel - 1, by omega⟩
      obtain ⟨parent, hparent⟩ : ∃ parent, P p = some parent := by
        cases hq : P p with
        | some parent => exact ⟨parent, rfl⟩
        | none =>
            rw [h.closed hq side] at hp
            cases hp
      have hunlinked := h.unlink hparent hp hleaf
      have hvalue := @Rep.valueAt_unlink t P p n parent side
      rw [RadixTree.prune, h.parent hparent hp]
      dsimp only
      split
      · exact ⟨_, _, _, rfl, hunlinked, hvalue⟩
      · rename_i hgo
        push Not at hgo
        obtain ⟨hright, hleft, hempty, htop⟩ := hgo
        have hparent' : Function.update P (side :: p) none p = some parent := by
          rw [Function.update_of_ne (fun heq => absurd (congrArg List.length heq) (by simp))]
          exact hparent
        -- the parent is not the root, which alone has no parent
        have hne' : p ≠ [] := fun heq => by
          have hroot := hunlinked.root
          have hnoparent := hunlinked.top
          rw [← heq, hparent'] at hroot
          rw [← Option.some.inj hroot] at hnoparent
          exact htop hnoparent
        have hleaf' : ∀ side', Function.update P (side :: p) none (side' :: p) = none := fun side' => by
          rw [← hunlinked.child hparent' side']
          cases side' with
          | true => simpa [RadixTree.child] using hright
          | false => simpa [RadixTree.child] using hleft
        obtain ⟨t', P', freed', hrun, hrep, hvalue'⟩ := ih hunlinked hne' hparent' hleaf'
          (Nat.le_of_succ_le_succ hfuel)
        refine ⟨t', P', freed', hrun, hrep, hvalue'.trans ?_⟩
        rw [← hvalue, Function.update_eq_self_iff, valueAt_of_some hparent', storedValue_eq_none.mpr hempty]

/-- The deletion of a stored prefix that is not the empty one. -/
theorem delete (h : Rep width t P freed) {sides : List Bool} (hne : sides ≠ [])
    (hstored : valueAt t P sides.reverse ≠ none) :
    ∃ t' P' freed', t.delete sides = some (.ok, t') ∧ Rep width t' P' freed' ∧
      valueAt t' P' = Function.update (valueAt t P) sides.reverse none := by
  have hwalk := h.walk h.root sides
  rw [List.append_nil] at hwalk
  obtain ⟨n, hn⟩ : ∃ n, P sides.reverse = some n := by
    cases hq : P sides.reverse with
    | some n => exact ⟨n, rfl⟩
    | none => exact absurd (valueAt_of_none hq) hstored
  rw [valueAt_of_some hn, Ne, storedValue_eq_none] at hstored
  rw [RadixTree.delete, hwalk, hn]
  dsimp only
  by_cases hchild : (t.node n).right.isSome = true ∨ (t.node n).left.isSome = true
  · rw [if_pos hchild, if_pos hstored]
    exact ⟨_, P, freed, rfl, h.setValue n radixNoValue, h.valueAt_setValue hn radixNoValue⟩
  · rw [if_neg hchild]
    push Not at hchild
    have hleaf : ∀ side, P (side :: sides.reverse) = none := fun side => by
      rw [← h.child hn side]
      cases side with
      | true => simpa [RadixTree.child] using hchild.1
      | false => simpa [RadixTree.child] using hchild.2
    obtain ⟨t', P', freed', hrun, hrep, hvalue⟩ :=
      @Rep.prune width t P freed h sides.reverse n sides.length (by simpa using hne) hn hleaf (by rw [List.length_reverse])
    exact ⟨t', P', freed', by rw [hrun]; rfl, hrep, hvalue⟩

end Rep

/-! ### Searching -/

/-- The first sides that an address takes, the last one first. -/
def pathTo (side : ℕ → Bool) : ℕ → List Bool
  | 0 => []
  | d + 1 => side d :: pathTo side d

theorem pathTo_reverse (side : ℕ → Bool) (d : ℕ) : (pathTo side d).reverse = (List.range d).map side := by
  induction d with
  | zero => rfl
  | succ d ih => rw [pathTo, List.reverse_cons, ih, List.range_succ, List.map_append, List.map_singleton]

theorem pathTo_length (side : ℕ → Bool) (d : ℕ) : (pathTo side d).length = d := by
  rw [← List.length_reverse, pathTo_reverse, List.length_map, List.length_range]

/-- The search has the deepest value from a depth on. -/
theorem Rep.findLoop {width : ℕ} {t : RadixTree} {P : Paths} {freed : List ℕ} (h : Rep width t P freed)
    (side : ℕ → Bool) {fuel d : ℕ} (hfuel : width + 1 ≤ d + fuel) (value : UInt64) :
    ∃ r, t.findLoop side fuel d (P (pathTo side d)) value = some r ∧
      ((∃ e, d ≤ e ∧ valueAt t P (pathTo side e) = some r ∧ ∀ e', e < e' → valueAt t P (pathTo side e') = none) ∨
        (∀ e, d ≤ e → valueAt t P (pathTo side e) = none) ∧ r = value) := by
  have hnone : ∀ d, P (pathTo side d) = none → ∀ e, d ≤ e → valueAt t P (pathTo side e) = none := by
    intro d hd e he
    refine valueAt_of_none ?_
    induction e, he using Nat.le_induction with
    | base => exact hd
    | succ e _ ih => exact h.closed ih (side e)
  induction fuel generalizing d value with
  | zero =>
      have hend : P (pathTo side d) = none := by
        cases hn : P (pathTo side d) with
        | none => rfl
        | some n =>
            have hdeep := h.deep hn
            rw [pathTo_length] at hdeep
            omega
      rw [hend]
      exact ⟨value, rfl, Or.inr ⟨hnone d hend, rfl⟩⟩
  | succ fuel ih =>
      cases hn : P (pathTo side d) with
      | none => exact ⟨value, rfl, Or.inr ⟨hnone d hn, rfl⟩⟩
      | some n =>
          rw [RadixTree.findLoop, h.child hn]
          obtain ⟨r, hrun, hr⟩ := ih (d := d + 1) (by omega)
            (if (t.node n).value ≠ radixNoValue then (t.node n).value else value)
          refine ⟨r, hrun, ?_⟩
          rcases hr with ⟨e, he, hvalue, hlast⟩ | ⟨hrest, rfl⟩
          · exact Or.inl ⟨e, by omega, hvalue, hlast⟩
          · have hat := valueAt_of_some (t := t) hn
            by_cases hv : (t.node n).value = radixNoValue
            · rw [if_neg (not_not_intro hv)]
              rw [storedValue_eq_none.mpr hv] at hat
              refine Or.inr ⟨fun e he => ?_, rfl⟩
              rcases Nat.eq_or_lt_of_le he with rfl | hlt
              · exact hat
              · exact hrest e hlt
            · rw [if_pos hv]
              rw [storedValue, if_neg hv] at hat
              exact Or.inl ⟨d, le_refl d, hat, fun e' he' => hrest e' he'⟩

/-! ### Tables -/

/-- The values that are stored, by the bits of their prefixes. -/
abbrev Table : Type := List Bool → Option UInt64

namespace KeyLoop

variable {K : Type} (l : KeyLoop K)

theorem sidesFrom_length (key mask : K) (fuel i : ℕ) : (l.sidesFrom key mask fuel i).length ≤ fuel := by
  induction fuel generalizing i with
  | zero => exact le_refl 0
  | succ fuel ih =>
      rw [sidesFrom]
      split
      · exact Nat.succ_le_succ (ih (i + 1))
      · exact Nat.zero_le _

theorem sides_length (key mask : K) : (l.sides key mask).length ≤ l.width := l.sidesFrom_length key mask l.width 0

end KeyLoop

theorem and_bit_ne_zero {w x b : ℕ} (hb : b = 2 ^ w) : decide (x &&& b ≠ 0) = x.testBit w := by
  rw [hb, Nat.and_two_pow]
  cases x.testBit w <;> simp

/-- The 32-bit functions go through the bits of a key from the highest one on. -/
theorem side_loop32 (key : UInt32) {n : ℕ} (hn : n < 32) : loop32.side key n = key.toBitVec.getMsbD n := by
  have hbit : ∀ n < 32, (bit32 n).toNat = 2 ^ (31 - n) := by decide
  have hside : loop32.side key n = decide (key.toNat &&& (bit32 n).toNat ≠ 0) := by
    show decide (key &&& bit32 n ≠ 0) = _
    simp only [ne_eq, ← UInt32.toNat_inj, UInt32.toNat_and, UInt32.toNat_zero]
  rw [hside, and_bit_ne_zero (hbit n hn), BitVec.getMsbD, decide_eq_true hn, Bool.true_and]
  rfl

theorem side_loop128 (key : ℕ → UInt8) {n : ℕ} (hn : n < 128) :
    loop128.side key n = (key (n / 8)).toBitVec.getMsbD (n % 8) := by
  have hbit : ∀ n < 128, (bit128 n).1 = n / 8 ∧ (bit128 n).2.toNat = 2 ^ (7 - n % 8) := by decide
  obtain ⟨hbyte, hbit⟩ := hbit n hn
  have hside : loop128.side key n = decide ((key (n / 8)).toNat &&& (bit128 n).2.toNat ≠ 0) := by
    show decide (key (bit128 n).1 &&& (bit128 n).2 ≠ 0) = _
    simp only [ne_eq, ← UInt8.toNat_inj, UInt8.toNat_and, UInt8.toNat_zero, hbyte]
  rw [hside, and_bit_ne_zero hbit, BitVec.getMsbD, decide_eq_true (Nat.mod_lt n (by decide)), Bool.true_and]
  rfl

/-- The bits of a key, the highest one first: those that the loops over a key test. -/
structure Bits {K : Type} (l : KeyLoop K) where
  bit : K → ℕ → Bool
  side : ∀ key, ∀ n < l.width, l.side key n = bit key n

/-- The bits of an IPv4 address or mask. -/
def bits32 : Bits loop32 := ⟨fun key => key.toBitVec.getMsbD, fun key _ hn => side_loop32 key hn⟩

/-- The bits of an IPv6 address or mask, byte after byte. -/
def bits128 : Bits loop128 :=
  ⟨fun key n => (key (n / 8)).toBitVec.getMsbD (n % 8), fun key _ hn => side_loop128 key hn⟩

namespace Bits

variable {K : Type} {l : KeyLoop K} (b : Bits l)

/-- The mask is contiguous: its bits that are set are the first ones. -/
def Contiguous (mask : K) : Prop := ∃ n ≤ l.width, ∀ i < l.width, b.bit mask i = decide (i < n)

/-- The bits of the key that the mask covers. -/
def prefixOf (key mask : K) : List Bool := ((List.range l.width).filter (b.bit mask)).map (b.bit key)

/-- The first bits of the address are the bits of the prefix. -/
def Contains (p : List Bool) (addr : K) : Prop := p.length ≤ l.width ∧ p = (List.range p.length).map (b.bit addr)

/-- The value of the longest stored prefix that contains the address, or no value. -/
def LongestMatch (T : Table) (addr : K) (value : UInt64) : Prop :=
  (∃ p, b.Contains p addr ∧ T p = some value ∧ ∀ q, b.Contains q addr → (T q).isSome = true → q.length ≤ p.length) ∨
    (∀ p, b.Contains p addr → T p = none) ∧ value = radixNoValue

variable {b}

theorem map_bit (b : Bits l) (key : K) {n : ℕ} (hn : n ≤ l.width) :
    (List.range n).map (l.side key) = (List.range n).map (b.bit key) :=
  List.map_congr_left fun i hi => b.side key i ((List.mem_range.mp hi).trans_le hn)

theorem sidesFrom_of_mask {mask : K} {n : ℕ} (hmask : ∀ i < l.width, b.bit mask i = decide (i < n)) (hn : n ≤ l.width)
    (key : K) {fuel i : ℕ} (hi : i + fuel = l.width) :
    l.sidesFrom key mask fuel i = (List.range' i (n - i)).map (l.side key) := by
  induction fuel generalizing i with
  | zero =>
      rw [Nat.sub_eq_zero_of_le (by omega)]
      rfl
  | succ fuel ih =>
      rw [KeyLoop.sidesFrom, b.side mask i (by omega), hmask i (by omega)]
      by_cases hin : i < n
      · rw [decide_eq_true hin, if_pos rfl, ih (by omega), ← List.map_cons, ← List.range'_succ,
          show n - (i + 1) + 1 = n - i by omega]
      · rw [decide_eq_false hin, if_neg Bool.false_ne_true, Nat.sub_eq_zero_of_le (Nat.le_of_not_lt hin)]
        rfl

/-- The loops over a key with a contiguous mask go along the prefix. -/
theorem Contiguous.sides {mask : K} (h : b.Contiguous mask) (key : K) : l.sides key mask = b.prefixOf key mask := by
  obtain ⟨n, hn, hmask⟩ := h
  have hcovered : (List.range l.width).filter (b.bit mask) = List.range n := by
    rw [List.filter_congr fun i hi => hmask i (List.mem_range.mp hi), show l.width = n + (l.width - n) by omega,
      List.range_add, List.filter_append, List.filter_eq_self.mpr fun i hi => decide_eq_true (List.mem_range.mp hi),
      List.filter_eq_nil_iff.mpr, List.append_nil]
    intro i hi
    obtain ⟨d, -, rfl⟩ := List.mem_map.mp hi
    rw [decide_eq_true_eq]
    omega
  rw [KeyLoop.sides, sidesFrom_of_mask hmask hn key (Nat.zero_add _), Nat.sub_zero, ← List.range_eq_range', prefixOf,
    hcovered, b.map_bit key hn]

end Bits

/-! ### Histories -/

/-- A call of an insertion, with the pages that the pool can give it, or of a deletion. -/
inductive Event (K : Type) where
  | insert (key mask : K) (value : UInt64) (pages : ℕ)
  | delete (key mask : K)

/-- The tree together with the values that its callers have stored and not deleted again. -/
abbrev State : Type := Option (RadixTree × Table)

section Histories

variable {K : Type} {l : KeyLoop K} (b : Bits l) (pagesize : ℕ)

/-- An insertion stores its value if it returns `NGX_OK`. A deletion is always one of a stored value. -/
def step : State → Event K → State
  | none, _ => none
  | some s, .insert key mask value pages =>
    some ((l.insert pagesize s.1 key mask value pages).2,
      if (l.insert pagesize s.1 key mask value pages).1 = .ok then
        Function.update s.2 (b.prefixOf key mask) (storedValue value)
      else s.2)
  | some s, .delete key mask => (l.delete s.1 key mask).map fun result =>
    (result.2, Function.update s.2 (b.prefixOf key mask) none)

/-- The masks are contiguous, and only a prefix is deleted that is stored and has at least one bit. -/
def Allowed : State → Event K → Prop
  | _, .insert _ mask _ _ => b.Contiguous mask
  | some s, .delete key mask =>
    b.Contiguous mask ∧ b.prefixOf key mask ≠ [] ∧ (s.2 (b.prefixOf key mask)).isSome = true
  | none, .delete _ _ => True

variable (l)

/-- The tree holds the table. -/
def Holds (t : RadixTree) (T : Table) : Prop :=
  ∃ P freed, Rep l.width t P freed ∧ ∀ p, T p = valueAt t P p.reverse

variable {l b pagesize} {t : RadixTree} {T : Table}

theorem update_reverse {T T' : Table} {p : List Bool} {v : Option UInt64} (h : ∀ q, T q = T' q.reverse) (q : List Bool) :
    Function.update T p v q = Function.update T' p.reverse v q.reverse := by
  by_cases hq : q = p
  · rw [hq, Function.update_self, Function.update_self]
  · rw [Function.update_of_ne hq, Function.update_of_ne (fun heq => hq (List.reverse_injective heq)), h q]

/-- An insertion is refused exactly where a value is stored, and then it leaves the tree alone. -/
theorem Holds.busy (h : Holds l t T) (key mask : K) (value : UInt64) (pages : ℕ) :
    ((l.insert pagesize t key mask value pages).1 = .busy ↔ (T (l.sides key mask)).isSome = true) ∧
      ((l.insert pagesize t key mask value pages).1 = .busy → (l.insert pagesize t key mask value pages).2 = t) := by
  obtain ⟨P, freed, hrep, hT⟩ := h
  rw [hT]
  rcases hrep.insert (l.sides_length key mask) pagesize pages value with ⟨hrun, hstored⟩ | ⟨hnone, P', freed', -, hret⟩
  · rw [KeyLoop.insert, hrun]
    exact ⟨iff_of_true rfl (Option.isSome_iff_ne_none.mpr hstored), fun _ => rfl⟩
  · have hne : (l.insert pagesize t key mask value pages).1 ≠ .busy := by
      rcases hret with ⟨hret, -⟩ | ⟨hret, -⟩
      · exact fun heq => by rw [KeyLoop.insert, hret] at heq; cases heq
      · exact fun heq => by rw [KeyLoop.insert, hret] at heq; cases heq
    rw [hnone]
    exact ⟨iff_of_false hne Bool.false_ne_true, fun heq => absurd heq hne⟩

theorem Holds.insert (h : Holds l t T) (key mask : K) (value : UInt64) (pages : ℕ) :
    Holds l (l.insert pagesize t key mask value pages).2
      (if (l.insert pagesize t key mask value pages).1 = .ok then Function.update T (l.sides key mask) (storedValue value)
        else T) := by
  obtain ⟨P, freed, hrep, hT⟩ := h
  unfold KeyLoop.insert
  rcases hrep.insert (l.sides_length key mask) pagesize pages value with
    ⟨hrun, -⟩ | ⟨-, P', freed', hrep', ⟨hret, hvalue⟩ | ⟨hret, hvalue⟩⟩
  · rw [hrun]
    exact ⟨P, freed, hrep, hT⟩
  · rw [if_pos hret]
    exact ⟨P', freed', hrep', fun p => by rw [hvalue, update_reverse hT]⟩
  · have hne : ¬(t.insert pagesize (l.sides key mask) value pages).1 = .ok := by
      rw [hret]
      decide
    rw [if_neg hne]
    exact ⟨P', freed', hrep', fun p => by rw [hvalue, hT]⟩

theorem Holds.delete (h : Holds l t T) {key mask : K} (hne : l.sides key mask ≠ [])
    (hstored : (T (l.sides key mask)).isSome = true) :
    ∃ t', l.delete t key mask = some (.ok, t') ∧ Holds l t' (Function.update T (l.sides key mask) none) := by
  obtain ⟨P, freed, hrep, hT⟩ := h
  rw [hT] at hstored
  obtain ⟨t', P', freed', hrun, hrep', hvalue⟩ := hrep.delete hne (Option.isSome_iff_ne_none.mp hstored)
  exact ⟨t', hrun, P', freed', hrep', fun p => by rw [hvalue, update_reverse hT]⟩

/-- With a page for every bit of it, a prefix without a value is stored. -/
theorem Holds.ok (h : Holds l t T) {key mask : K} (hnone : T (l.sides key mask) = none) {pages : ℕ}
    (hpages : (l.sides key mask).length ≤ pages) (value : UInt64) :
    (l.insert pagesize t key mask value pages).1 = .ok := by
  have hbusy := (@Holds.busy _ l pagesize t T h key mask value pages).1
  have herror : (l.insert pagesize t key mask value pages).1 ≠ .error :=
    t.insert_ne_error pagesize value hpages
  cases hret : (l.insert pagesize t key mask value pages).1 with
  | ok => rfl
  | error => exact absurd hret herror
  | busy =>
      have hsome := hbusy.mp hret
      rw [hnone] at hsome
      cases hsome

/-- Every admitted call leaves a tree that holds the table. -/
theorem Holds.step {s : State} (h : ∃ t T, s = some (t, T) ∧ Holds l t T) {event : Event K} (hallowed : Allowed b s event) :
    ∃ t T, Radix.step b pagesize s event = some (t, T) ∧ Holds l t T := by
  obtain ⟨t, T, rfl, hholds⟩ := h
  cases event with
  | insert key mask value pages =>
      have hmask : b.Contiguous mask := hallowed
      have hinserted := @Holds.insert _ l pagesize t T hholds key mask value pages
      rw [hmask.sides] at hinserted
      exact ⟨_, _, rfl, hinserted⟩
  | delete key mask =>
      obtain ⟨hmask, hne, hstored⟩ := hallowed
      rw [← hmask.sides] at hne hstored
      obtain ⟨t', hrun, hholds'⟩ := hholds.delete hne hstored
      rw [hmask.sides] at hholds'
      exact ⟨t', _, by rw [Radix.step, hrun]; rfl, hholds'⟩

/-- A search ends, with the value of the longest match. -/
theorem Holds.find (h : Holds l t T) (b : Bits l) (addr : K) : ∃ r, l.find t addr = some r ∧ b.LongestMatch T addr r := by
  obtain ⟨P, freed, hrep, hT⟩ := h
  obtain ⟨r, hrun, hr⟩ := @Rep.findLoop _ _ _ _ hrep (l.side addr) (l.width + 1) 0 (by omega) radixNoValue
  rw [pathTo, hrep.root] at hrun
  have hpath : ∀ p, b.Contains p addr → T p = valueAt t P (pathTo (l.side addr) p.length) := fun p hp => by
    conv_lhs => rw [hp.2, ← b.map_bit addr hp.1]
    rw [hT, ← pathTo_reverse, List.reverse_reverse]
  refine ⟨r, hrun, ?_⟩
  rcases hr with ⟨e, -, hvalue, hlast⟩ | ⟨hnone, rfl⟩
  · have he : e ≤ l.width := by
      obtain ⟨n, hn⟩ : ∃ n, P (pathTo (l.side addr) e) = some n := by
        cases hq : P (pathTo (l.side addr) e) with
        | some n => exact ⟨n, rfl⟩
        | none => rw [valueAt_of_none hq] at hvalue; cases hvalue
      have hdeep := hrep.deep hn
      rwa [pathTo_length] at hdeep
    have hlength : ((List.range e).map (b.bit addr)).length = e := by rw [List.length_map, List.length_range]
    have hcontains : b.Contains ((List.range e).map (b.bit addr)) addr := ⟨by rwa [hlength], by rw [hlength]⟩
    refine Or.inl ⟨_, hcontains, ?_, fun q hq hstored => ?_⟩
    · rw [hpath _ hcontains, hlength]
      exact hvalue
    · rw [hlength]
      by_contra hlonger
      rw [hpath q hq, hlast q.length (by omega)] at hstored
      cases hstored
  · refine Or.inr ⟨fun p hp => ?_, rfl⟩
    rw [hpath p hp]
    exact hnone p.length (Nat.zero_le _)

end Histories

/-! ### Creation -/

/-- Nothing is stored. -/
def emptyTable : Table := fun _ => none

theorem Holds.preallocateLevel {pagesize pages : ℕ} {mask inc : UInt32} {fuel : ℕ} {t t' : RadixTree} {key : UInt32}
    (h : Holds loop32 t emptyTable) (hrun : preallocateLevel pagesize pages mask inc fuel t key = some t') :
    Holds loop32 t' emptyTable := by
  induction fuel generalizing t key with
  | zero => cases hrun
  | succ fuel ih =>
      have hinserted := @Holds.insert _ loop32 pagesize t emptyTable h key mask radixNoValue pages
      have hsame : Function.update emptyTable (loop32.sides key mask) (storedValue radixNoValue) = emptyTable :=
        Function.update_eq_self_iff.mpr rfl
      rw [hsame, ite_self] at hinserted
      rw [Radix.preallocateLevel] at hrun
      split at hrun
      · rename_i t₁ hret
        rw [hret] at hinserted
        split at hrun
        · cases hrun
          exact hinserted
        · exact ih hinserted hrun
      · cases hrun

theorem Holds.preallocateLevels {pagesize pages n : ℕ} {mask inc : UInt32} {t t' : RadixTree}
    (h : Holds loop32 t emptyTable) (hrun : preallocateLevels pagesize pages n mask inc t = some t') :
    Holds loop32 t' emptyTable := by
  induction n generalizing mask inc t with
  | zero =>
      cases hrun
      exact h
  | succ n ih =>
      rw [Radix.preallocateLevels] at hrun
      split at hrun
      · cases hrun
      · rename_i t₁ hlevel
        exact ih (h.preallocateLevel hlevel) hrun

theorem holds_root (size : ℕ) (node : ℕ → RadixNode) :
    Holds loop32 (RadixTree.put ⟨node, 0, none, 1, size⟩ 0 ⟨none, none, none, radixNoValue⟩) emptyTable := by
  have hroot : ∀ {p : List Bool} {n : ℕ}, (if p = [] then some 0 else none) = some n → p = [] ∧ n = 0 := by
    intro p n hp
    by_cases hnil : p = []
    · rw [if_pos hnil] at hp
      exact ⟨hnil, (Option.some.inj hp).symm⟩
    · rw [if_neg hnil] at hp
      cases hp
  refine ⟨fun p => if p = [] then some 0 else none, [], ?_, fun p => ?_⟩
  · constructor
    · rfl
    · rw [RadixTree.root_put, RadixTree.node_put_self]
    · intro p n hp side
      obtain ⟨rfl, rfl⟩ := hroot hp
      rw [RadixTree.child_put_new, if_pos rfl, if_neg (List.cons_ne_nil side [])]
    · intro side p n m _ hm
      exact absurd (hroot hm).1 (List.cons_ne_nil side p)
    · intro p q n hp hq
      rw [(hroot hp).1, (hroot hq).1]
    · intro p _ side
      exact if_neg (List.cons_ne_nil side p)
    · intro p n hp
      rw [(hroot hp).1]
      exact Nat.zero_le _
    · rfl
    · exact List.nodup_nil
    · exact fun _ => List.not_mem_nil
    · intro p n hp
      rw [(hroot hp).2]
      exact Nat.one_pos
    · exact fun n hn => absurd hn List.not_mem_nil
  · by_cases hnil : p.reverse = []
    · rw [valueAt_of_some (if_pos hnil), RadixTree.node_put_self]
      rfl
    · rw [valueAt_of_none (if_neg hnil)]
      rfl

/-- A tree that has been created stores nothing. -/
theorem holds_create {pagesize pages : ℕ} {preallocate : Preallocate} {t : RadixTree}
    (h : radixTreeCreate pagesize pages preallocate = some t) : Holds loop32 t emptyTable := by
  rw [radixTreeCreate] at h
  cases pages with
  | zero => cases h
  | succ pages => exact (holds_root _ _).preallocateLevels h

theorem Holds.loop128 {t : RadixTree} {T : Table} (h : Holds loop32 t T) : Holds loop128 t T := by
  obtain ⟨P, freed, hrep, hT⟩ := h
  exact ⟨P, freed, hrep.mono (by decide), hT⟩

/-! With memory, every creation succeeds. -/

theorem Holds.preallocateLevel_some {pagesize pages : ℕ} (hpages : 32 ≤ pages) (mask : UInt32) {inc : UInt32} {fuel m : ℕ}
    {t : RadixTree} {key : UInt32} (h : Holds loop32 t emptyTable)
    (hend : key.toNat + m * inc.toNat = 2 ^ 32 ∧ m ≤ fuel ∨ key + inc = 0 ∧ 1 ≤ fuel) :
    ∃ t', Radix.preallocateLevel pagesize pages mask inc fuel t key = some t' := by
  induction fuel generalizing t key m with
  | zero =>
      rcases hend with ⟨hlast, hm⟩ | ⟨-, hfuel⟩
      · have hlt := key.toNat_lt
        obtain rfl : m = 0 := by omega
        omega
      · omega
  | succ fuel ih =>
      have hok : (loop32.insert pagesize t key mask radixNoValue pages).1 = .ok :=
        h.ok rfl ((loop32.sides_length key mask).trans hpages) radixNoValue
      have hinserted := @Holds.insert _ loop32 pagesize t emptyTable h key mask radixNoValue pages
      have hsame : Function.update emptyTable (loop32.sides key mask) (storedValue radixNoValue) = emptyTable :=
        Function.update_eq_self_iff.mpr rfl
      rw [hsame, ite_self] at hinserted
      rw [Radix.preallocateLevel]
      generalize hret : loop32.insert pagesize t key mask radixNoValue pages = result at hok hinserted ⊢
      obtain ⟨ret, t₁⟩ := result
      obtain rfl : ret = .ok := hok
      dsimp only
      by_cases hzero : key + inc = 0
      · rw [if_pos hzero]
        exact ⟨t₁, rfl⟩
      · rw [if_neg hzero]
        rcases hend with ⟨hlast, hm⟩ | ⟨hend, -⟩
        · -- the next key is one step nearer to the end
          have hlt := key.toNat_lt
          obtain ⟨m, rfl⟩ : ∃ k, m = k + 1 := ⟨m - 1, by
            have hm0 : m ≠ 0 := fun heq => by
              rw [heq, Nat.zero_mul] at hlast
              omega
            omega⟩
          rw [Nat.add_mul, Nat.one_mul] at hlast
          have hle : key.toNat + inc.toNat ≤ 2 ^ 32 := by
            rw [← hlast]
            exact Nat.add_le_add_left (Nat.le_add_left _ _) _
          have hnext : (key + inc).toNat = key.toNat + inc.toNat := by
            rw [UInt32.toNat_add]
            refine Nat.mod_eq_of_lt (lt_of_le_of_ne hle fun heq => hzero (UInt32.toNat_inj.mp ?_))
            rw [UInt32.toNat_add, heq]
            rfl
          refine @ih m t₁ (key + inc) hinserted (Or.inl ⟨?_, Nat.le_of_succ_le_succ hm⟩)
          rw [hnext, ← hlast, Nat.add_assoc, Nat.add_comm inc.toNat]
        · exact absurd hend hzero

theorem Holds.preallocateLevels_some {pagesize pages n : ℕ} (hpages : 32 ≤ pages) (mask : UInt32) {inc : UInt32}
    {t : RadixTree} (h : Holds loop32 t emptyTable) (hinc : inc = 0 ∨ ∃ j ≤ 31, inc.toNat = 2 ^ j) :
    ∃ t', Radix.preallocateLevels pagesize pages n mask inc t = some t' := by
  induction n generalizing mask inc t with
  | zero => exact ⟨t, rfl⟩
  | succ n ih =>
      have hend : ∃ m, (0 : UInt32).toNat + m * inc.toNat = 2 ^ 32 ∧ m ≤ 2 ^ 32 ∨ 0 + inc = 0 ∧ 1 ≤ 2 ^ 32 := by
        rcases hinc with rfl | ⟨j, hj, hinc⟩
        · exact ⟨0, Or.inr ⟨rfl, by norm_num⟩⟩
        · refine ⟨2 ^ (32 - j), Or.inl ⟨?_, Nat.pow_le_pow_right (by norm_num) (by omega)⟩⟩
          rw [hinc, ← Nat.pow_add, show 32 - j + j = 32 by omega, UInt32.toNat_zero, Nat.zero_add]
      have hhalf : inc >>> 1 = 0 ∨ ∃ j ≤ 31, (inc >>> 1).toNat = 2 ^ j := by
        rcases hinc with rfl | ⟨j, hj, hinc⟩
        · exact Or.inl rfl
        · have hshift : (inc >>> 1).toNat = inc.toNat / 2 := by
            rw [UInt32.toNat_shiftRight, Nat.shiftRight_eq_div_pow]
            rfl
          rcases Nat.eq_zero_or_pos j with rfl | hpos
          · refine Or.inl (UInt32.toNat_inj.mp ?_)
            rw [hshift, hinc]
            rfl
          · refine Or.inr ⟨j - 1, by omega, ?_⟩
            obtain ⟨j, rfl⟩ : ∃ k, j = k + 1 := ⟨j - 1, by omega⟩
            rw [hshift, hinc, Nat.pow_succ, Nat.mul_div_cancel _ (by decide), Nat.add_sub_cancel]
      obtain ⟨m, hend⟩ := hend
      obtain ⟨t₁, hlevel⟩ := @Holds.preallocateLevel_some pagesize pages hpages (mask >>> 1 ||| 0x80000000) inc _ m t 0 h hend
      rw [Radix.preallocateLevels, hlevel]
      exact ih _ (h.preallocateLevel hlevel) hhalf

theorem create_some (pagesize : ℕ) {pages : ℕ} (hpages : 32 ≤ pages) (preallocate : Preallocate) :
    ∃ t, radixTreeCreate pagesize pages preallocate = some t := by
  obtain ⟨pages, rfl⟩ : ∃ k, pages = k + 1 := ⟨pages - 1, by omega⟩
  exact (holds_root _ _).preallocateLevels_some hpages 0 (Or.inr ⟨31, le_refl 31, by decide⟩)

/-! ### The trees as tables -/

/-- Of every created tree and every history: a search finds the longest match among what is stored, and an insertion is
refused exactly where a value is stored, then without a change, and otherwise stores its value if there is memory. -/
def LongestPrefixes {K : Type} {l : KeyLoop K} (b : Bits l) : Prop :=
  ∀ (pagesize pages : ℕ) (preallocate : Preallocate) (t : RadixTree) (events : List (Event K)),
    radixTreeCreate pagesize pages preallocate = some t →
    Along (step b pagesize) (Allowed b) (some (t, emptyTable)) events →
    ∃ t' T, run (step b pagesize) (some (t, emptyTable)) events = some (t', T) ∧
      (∀ addr, ∃ r, l.find t' addr = some r ∧ b.LongestMatch T addr r) ∧
      ∀ key mask value pages, b.Contiguous mask →
        ((l.insert pagesize t' key mask value pages).1 = .busy ↔ (T (b.prefixOf key mask)).isSome = true) ∧
          ((l.insert pagesize t' key mask value pages).1 = .busy →
            (l.insert pagesize t' key mask value pages).2 = t') ∧
          (T (b.prefixOf key mask) = none → (b.prefixOf key mask).length ≤ pages →
            (l.insert pagesize t' key mask value pages).1 = .ok)

theorem Holds.longestPrefixes {K : Type} {l : KeyLoop K} {b : Bits l} {pagesize : ℕ} {t : RadixTree}
    {events : List (Event K)} (h : Holds l t emptyTable)
    (hallowed : Along (Radix.step b pagesize) (Allowed b) (some (t, emptyTable)) events) :
    ∃ t' T, run (Radix.step b pagesize) (some (t, emptyTable)) events = some (t', T) ∧
      (∀ addr, ∃ r, l.find t' addr = some r ∧ b.LongestMatch T addr r) ∧
      ∀ key mask value pages, b.Contiguous mask →
        ((l.insert pagesize t' key mask value pages).1 = .busy ↔ (T (b.prefixOf key mask)).isSome = true) ∧
          ((l.insert pagesize t' key mask value pages).1 = .busy →
            (l.insert pagesize t' key mask value pages).2 = t') ∧
          (T (b.prefixOf key mask) = none → (b.prefixOf key mask).length ≤ pages →
            (l.insert pagesize t' key mask value pages).1 = .ok) := by
  obtain ⟨t', T, hrun, hholds⟩ := run_invariant (I := fun s => ∃ t T, s = some (t, T) ∧ Holds l t T)
    (fun _ _ hs hok => Holds.step hs hok) ⟨t, emptyTable, rfl, h⟩ hallowed
  refine ⟨t', T, hrun, fun addr => hholds.find b addr, fun key mask value pages hmask => ?_⟩
  rw [← hmask.sides]
  obtain ⟨hbusy, hsame⟩ := @Holds.busy _ l pagesize t' T hholds key mask value pages
  exact ⟨hbusy, hsame, fun hnone hlength => hholds.ok hnone hlength value⟩

/-- With memory a tree is created, and either family of functions finds the longest prefixes in it. -/
theorem longest_prefixes :
    (∀ pagesize pages preallocate, 32 ≤ pages → ∃ t, radixTreeCreate pagesize pages preallocate = some t) ∧
      LongestPrefixes bits32 ∧ LongestPrefixes bits128 :=
  ⟨fun pagesize _ preallocate hpages => create_some pagesize hpages preallocate,
    fun _ _ _ _ _ hcreate hallowed => (holds_create hcreate).longestPrefixes hallowed,
    fun _ _ _ _ _ hcreate hallowed => (holds_create hcreate).loop128.longestPrefixes hallowed⟩

/-- 10.0.0.0/8 and two prefixes in it, of which one is deleted. -/
def events32 : List (Event UInt32) :=
  [.insert 0x0a000000 0xff000000 1 32, .insert 0x0a010000 0xffff0000 2 32, .insert 0x0a020000 0xffff0000 3 32,
    .delete 0x0a010000 0xffff0000]

/-- The mask with that many bytes. -/
def maskBytes (n i : ℕ) : UInt8 := if i < n then 255 else 0

/-- 2001:db8::/32 and 2001:db8:1::/48. -/
def events128 : List (Event (ℕ → UInt8)) :=
  [.insert (fun i => [0x20, 0x01, 0x0d, 0xb8].getD i 0) (maskBytes 4) 1 128,
    .insert (fun i => [0x20, 0x01, 0x0d, 0xb8, 0, 1].getD i 0) (maskBytes 6) 2 128,
    .delete (fun i => [0x20, 0x01, 0x0d, 0xb8].getD i 0) (maskBytes 4)]

set_option maxRecDepth 20000 in
theorem longest_prefixes_runs : ∃ t, radixTreeCreate 4096 32 (.bits 1) = some t ∧
    (∃ t' T, run (step bits32 4096) (some (t, emptyTable)) events32 = some (t', T) ∧
      (∃ r, loop32.find t' 0x0a020304 = some r ∧ bits32.LongestMatch T 0x0a020304 r) ∧
      (loop32.insert 4096 t' 0x0a020000 0xffff0000 9 32).1 = .busy ∧
      (loop32.insert 4096 t' 0x0a010000 0xffff0000 9 32).1 = .ok) ∧
    ∃ t' T, run (step bits128 4096) (some (t, emptyTable)) events128 = some (t', T) ∧
      ∃ r, loop128.find t' (fun i => [0x20, 0x01, 0x0d, 0xb8, 0, 1].getD i 7) = some r ∧
        bits128.LongestMatch T (fun i => [0x20, 0x01, 0x0d, 0xb8, 0, 1].getD i 7) r := by
  obtain ⟨t, hcreate⟩ := longest_prefixes.1 4096 32 (.bits 1) (le_refl 32)
  have height : bits32.Contiguous 0xff000000 := ⟨8, by decide, by decide⟩
  have hsixteen : bits32.Contiguous 0xffff0000 := ⟨16, by decide, by decide⟩
  have hfour : bits128.Contiguous (maskBytes 4) := ⟨32, by decide, by decide⟩
  have hsix : bits128.Contiguous (maskBytes 6) := ⟨48, by decide, by decide⟩
  have hstored : (((radixTreeCreate 4096 32 (.bits 1)).bind fun t =>
      run (step bits32 4096) (some (t, emptyTable)) (events32.take 3)).bind fun s =>
        s.2 (bits32.prefixOf 0x0a010000 0xffff0000)).isSome = true := by
    decide +kernel
  have hstored128 : (((radixTreeCreate 4096 32 (.bits 1)).bind fun t =>
      run (step bits128 4096) (some (t, emptyTable)) (events128.take 2)).bind fun s =>
        s.2 (bits128.prefixOf (fun i => [0x20, 0x01, 0x0d, 0xb8].getD i 0) (maskBytes 4))).isSome = true := by
    decide +kernel
  have hvalues : ((radixTreeCreate 4096 32 (.bits 1)).bind fun t =>
      run (step bits32 4096) (some (t, emptyTable)) events32).map (fun s =>
        (s.2 (bits32.prefixOf 0x0a020000 0xffff0000), s.2 (bits32.prefixOf 0x0a010000 0xffff0000))) =
          some (some 3, none) := by
    decide +kernel
  rw [hcreate] at hstored hstored128 hvalues
  refine ⟨t, hcreate, ?_, ?_⟩
  · obtain ⟨t', T, hrun, hfind, hinsert⟩ := longest_prefixes.2.1 4096 32 (.bits 1) t events32 hcreate
      ⟨height, hsixteen, hsixteen, ⟨hsixteen, by decide, hstored⟩, trivial⟩
    rw [Option.bind_some, hrun, Option.map_some, Option.some.injEq, Prod.mk.injEq] at hvalues
    obtain ⟨hthree, hnone⟩ := hvalues
    exact ⟨t', T, hrun, hfind _, (hinsert _ _ 9 32 hsixteen).1.mpr (congrArg Option.isSome hthree),
      (hinsert _ _ 9 32 hsixteen).2.2 hnone (by decide)⟩
  · obtain ⟨t', T, hrun, hfind, -⟩ := longest_prefixes.2.2 4096 32 (.bits 1) t events128 hcreate
      ⟨hfour, hsix, ⟨hfour, by decide, hstored128⟩, trivial⟩
    exact ⟨t', T, hrun, hfind _⟩

end NginxDtls.Radix
