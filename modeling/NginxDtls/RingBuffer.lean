import Mathlib.Tactic

/-! Ring buffers. What is put in one cell after another is seen as one long row, and the ring shows a window of it: cell
`k % n` is what is at `k` in the row. The window is at most as long as the ring. -/

namespace NginxDtls.RingBuffer

variable {α : Type} {n a b a' b' : ℕ} {ring ring' row row' : ℕ → α}

def Window (n : ℕ) (ring row : ℕ → α) (a b : ℕ) : Prop := ∀ k, a ≤ k → k < b → ring (k % n) = row k

theorem Window.mono (h : Window n ring row a b) (ha : a ≤ a') (hb : b' ≤ b) : Window n ring row a' b' := fun k hk hkb =>
  h k (ha.trans hk) (hkb.trans_le hb)

/-- Two places that are nearer than the length of the ring have different cells. -/
theorem eq_of_mod_eq {j k : ℕ} (hjk : j ≤ k) (hlt : k < j + n) (h : j % n = k % n) : j = k := by
  have hdvd := (Nat.modEq_iff_dvd' hjk).mp h
  have hzero := Nat.eq_zero_of_dvd_of_lt hdvd (by omega)
  omega

/-- A cell behind the window is written. -/
theorem Window.push (h : Window n ring row a b) (hroom : b < a + n) (x : α) :
    Window n (Function.update ring (b % n) x) (Function.update row b x) a (b + 1) := by
  intro k hk hkb
  by_cases hkeq : k = b
  · rw [hkeq, Function.update_self, Function.update_self]
  · have hcell : k % n ≠ b % n := fun heq => hkeq (eq_of_mod_eq (by omega) (by omega) heq)
    rw [Function.update_of_ne hkeq, Function.update_of_ne hcell]
    exact h k hk (by omega)

/-- A row with some elements put at `b`. -/
def splice (row : ℕ → α) (b : ℕ) (l : List α) (k : ℕ) : α := if b ≤ k then (l[k - b]?).getD (row k) else row k

theorem splice_of_lt {l : List α} {k : ℕ} (h : k < b) : splice row b l k = row k := if_neg (not_le.mpr h)

theorem splice_of_ge {l : List α} {k : ℕ} (h : b + l.length ≤ k) : splice row b l k = row k := by
  rw [splice]
  split_ifs
  · rw [List.getElem?_eq_none (by omega)]
    rfl
  · rfl

theorem splice_add {l : List α} {i : ℕ} (h : i < l.length) : splice row b l (b + i) = l[i] := by
  rw [splice, if_pos (Nat.le_add_right b i), Nat.add_sub_cancel_left, List.getElem?_eq_getElem h]
  rfl

/-- What is behind a splice is spliced behind it. -/
theorem splice_append (row : ℕ → α) (b : ℕ) (l l' : List α) :
    splice (splice row b l) (b + l.length) l' = splice row b (l ++ l') := by
  funext k
  by_cases hk : b + l.length ≤ k
  · by_cases hk' : k < b + l.length + l'.length
    · obtain ⟨i, rfl⟩ := Nat.exists_eq_add_of_le hk
      have hi : i < l'.length := by omega
      rw [splice_add hi, Nat.add_assoc, splice_add (by rw [List.length_append]; omega),
        List.getElem_append_right (Nat.le_add_right _ _)]
      simp only [Nat.add_sub_cancel_left]
    · rw [splice_of_ge (by omega), splice_of_ge (by omega), splice_of_ge (by rw [List.length_append]; omega)]
  · rw [splice_of_lt (by omega)]
    by_cases hb : b ≤ k
    · obtain ⟨i, rfl⟩ := Nat.exists_eq_add_of_le hb
      have hi : i < l.length := by omega
      rw [splice_add hi, splice_add (by rw [List.length_append]; omega), List.getElem_append_left hi]
    · rw [splice_of_lt (by omega), splice_of_lt (by omega)]

/-- A string is put behind the window, up to the end of the ring. -/
theorem Window.splice_fit (h : Window n ring row a b) {p : ℕ} {l : List α} (hpb : p % n = b % n)
    (hroom : b + l.length ≤ a + n) (hfit : p + l.length ≤ n) :
    Window n (splice ring p l) (splice row b l) a (b + l.length) := by
  intro k hk hkb
  by_cases hlt : k < b
  · rw [splice_of_lt hlt, ← h k hk hlt]
    by_cases hin : p ≤ k % n ∧ k % n < p + l.length
    · -- a cell of the string cannot be one of the window
      obtain ⟨i, hi⟩ := Nat.exists_eq_add_of_le hin.1
      have hmod : (b + i) % n = k % n := by
        rw [Nat.add_mod, ← hpb, ← Nat.add_mod, ← hi, Nat.mod_mod]
      have hsame := eq_of_mod_eq (n := n) (j := k) (k := b + i) (by omega) (by omega) hmod.symm
      omega
    · by_cases hp' : p ≤ k % n
      · exact splice_of_ge (by omega)
      · exact splice_of_lt (by omega)
  · obtain ⟨i, rfl⟩ := Nat.exists_eq_add_of_le (not_lt.mp hlt)
    have hi : i < l.length := by omega
    have hcell : (b + i) % n = p + i := by
      rw [Nat.add_mod, ← hpb, ← Nat.add_mod, Nat.mod_eq_of_lt (by omega)]
    rw [hcell, splice_add hi, splice_add hi]

/-- A string is put behind the window, in two parts: up to the end of the ring, and from its beginning on. -/
theorem Window.splice_wrap (h : Window n ring row a b) (hab : a ≤ b) {p : ℕ} {l : List α} (hp : p ≤ n)
    (hpb : p % n = b % n) (hroom : b + l.length ≤ a + n) (hwrap : n - p ≤ l.length) :
    Window n (splice (splice ring p (l.take (n - p))) 0 (l.drop (n - p))) (splice row b l) a (b + l.length) := by
  have htake : (l.take (n - p)).length = n - p := List.length_take_of_le hwrap
  have hfirst := h.splice_fit hpb (l := l.take (n - p)) (by omega) (by omega)
  have hmid : (b + (l.take (n - p)).length) % n = 0 := by
    rw [htake, Nat.add_mod, ← hpb, ← Nat.add_mod, Nat.add_sub_of_le hp, Nat.mod_self]
  have hsecond := hfirst.splice_fit (p := 0) (l := l.drop (n - p)) ((Nat.zero_mod n).trans hmid.symm)
    (by rw [htake, List.length_drop]; omega) (by rw [List.length_drop]; omega)
  rw [splice_append, List.take_append_drop] at hsecond
  rw [htake, List.length_drop] at hsecond
  refine hsecond.mono (le_refl a) ?_
  omega

/-- `len` elements of a row. -/
def slice (row : ℕ → α) (a len : ℕ) : List α := (List.range len).map fun i => row (a + i)

@[simp] theorem length_slice (row : ℕ → α) (a len : ℕ) : (slice row a len).length = len := by
  rw [slice, List.length_map, List.length_range]

theorem slice_congr {len : ℕ} (h : ∀ i < len, row (a + i) = row' (b + i)) : slice row a len = slice row' b len :=
  List.map_congr_left fun i hi => h i (List.mem_range.mp hi)

theorem slice_add (row : ℕ → α) (a m len : ℕ) : slice row a (m + len) = slice row a m ++ slice row (a + m) len := by
  rw [slice, List.range_add, List.map_append, List.map_map]
  congr 1
  exact List.map_congr_left fun i _ => by rw [Function.comp_apply, Nat.add_assoc]

theorem slice_splice (row : ℕ → α) (b : ℕ) (l : List α) : slice (splice row b l) b l.length = l := by
  refine List.ext_getElem (by rw [length_slice]) fun i hi hi' => ?_
  simp only [slice, List.getElem_map, List.getElem_range]
  exact splice_add hi'

/-- A string of the window is read from the ring in one part or two. -/
theorem Window.read (h : Window n ring row a b) {p len : ℕ} (hp : p ≤ n) (hpa : p % n = a' % n) (ha : a ≤ a')
    (hb : a' + len ≤ b) (hlen : len ≤ n) :
    (if len > n - p then slice ring p (n - p) ++ slice ring 0 (len - (n - p)) else slice ring p len) =
      slice row a' len := by
  have hcell : ∀ i < len, ring ((a' + i) % n) = row (a' + i) := fun i hi => h (a' + i) (by omega) (by omega)
  split_ifs with hwrap
  · have hsum : len = (n - p) + (len - (n - p)) := by omega
    conv_rhs => rw [hsum, slice_add]
    congr 1
    · refine slice_congr fun i hi => ?_
      rw [← hcell i (by omega), Nat.add_mod, ← hpa, ← Nat.add_mod, Nat.mod_eq_of_lt (by omega)]
    · refine slice_congr fun i hi => ?_
      have hmod : (a' + (n - p + i)) % n = i := by
        rw [Nat.add_mod, ← hpa, ← Nat.add_mod, ← Nat.add_assoc, Nat.add_sub_of_le hp, Nat.add_mod_left,
          Nat.mod_eq_of_lt (by omega)]
      rw [Nat.add_assoc, ← hcell (n - p + i) (by omega), hmod, Nat.zero_add]
  · refine slice_congr fun i hi => ?_
    rw [← hcell i hi, Nat.add_mod, ← hpa, ← Nat.add_mod, Nat.mod_eq_of_lt (by omega)]

end NginxDtls.RingBuffer
