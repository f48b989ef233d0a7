import Mathlib.Tactic

/-! The bits of a byte string, the highest bit of a byte first, and masks for a number of first bits that are made byte
by byte. Two strings agree under such a mask exactly if they agree in so many bits. -/

namespace NginxDtls

/-- A bit of a byte string, counted from the highest bit of its first byte. -/
def bitAt (b : ℕ → UInt8) (i : ℕ) : Bool := (b (i / 8)).toBitVec.getMsbD (i % 8)

/-- The byte whose first `s` bits are set, for `s` up to 8: `(u_char) (0xffu << (8 - s))`. -/
def maskByte (s : ℕ) : UInt8 := UInt8.ofNat (0xff <<< (8 - s))

/-- The part of a mask of `n` bits that is in a byte. -/
def maskAt (n j : ℕ) : UInt8 := maskByte (min 8 (n - 8 * j))

theorem maskByte_bit {s k : ℕ} (hs : s ≤ 8) (hk : k < 8) : (maskByte s).toBitVec.getMsbD k = decide (k < s) := by
  have hall : ∀ s ≤ 8, ∀ k < 8, (maskByte s).toBitVec.getMsbD k = decide (k < s) := by decide
  exact hall s hs k hk

/-- A byte is determined by its bits. -/
theorem byte_eq_iff {x y : UInt8} : x = y ↔ ∀ k < 8, x.toBitVec.getMsbD k = y.toBitVec.getMsbD k := by
  constructor
  · rintro rfl k _
    rfl
  · intro h
    exact UInt8.toBitVec_inj.mp (BitVec.eq_of_getMsbD_eq h)

theorem masked_byte_iff {s : ℕ} (hs : s ≤ 8) (x y : UInt8) : x &&& maskByte s = y &&& maskByte s ↔
    ∀ k < s, x.toBitVec.getMsbD k = y.toBitVec.getMsbD k := by
  rw [byte_eq_iff]
  constructor
  · intro h k hk
    have hbit := h k (by omega)
    rwa [UInt8.toBitVec_and, UInt8.toBitVec_and, BitVec.getMsbD_and, BitVec.getMsbD_and, maskByte_bit hs (by omega),
      decide_eq_true hk, Bool.and_true, Bool.and_true] at hbit
  · intro h k hk
    rw [UInt8.toBitVec_and, UInt8.toBitVec_and, BitVec.getMsbD_and, BitVec.getMsbD_and, maskByte_bit hs hk]
    by_cases hks : k < s
    · rw [h k hks]
    · rw [decide_eq_false hks, Bool.and_false, Bool.and_false]

/-- Strings that agree under a mask agree in the first bits. -/
theorem masked_iff {n m : ℕ} (hn : n ≤ 8 * m) (a b : ℕ → UInt8) :
    (∀ j < m, a j &&& maskAt n j = b j &&& maskAt n j) ↔ ∀ i < n, bitAt a i = bitAt b i := by
  constructor
  · intro h i hi
    have hbyte := (masked_byte_iff (Nat.min_le_left 8 (n - 8 * (i / 8))) _ _).mp (h (i / 8) (by omega))
    exact hbyte (i % 8) (by omega)
  · intro h j hj
    refine (masked_byte_iff (Nat.min_le_left 8 (n - 8 * j)) _ _).mpr fun k hk => ?_
    have hbit := h (8 * j + k) (by omega)
    rwa [bitAt, bitAt, show (8 * j + k) / 8 = j by omega, show (8 * j + k) % 8 = k by omega] at hbit

end NginxDtls
