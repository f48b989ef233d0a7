import Mathlib.Tactic
import NginxDtls.Bytes

/-! Strings of bits, the highest bit first: the bits of a number, the number of bits, and the bits of bytes. -/

namespace NginxDtls.BitString

/-- The last `n` bits of a number. -/
def bitsOf : ℕ → ℕ → List Bool
  | 0, _ => []
  | n + 1, x => x.testBit n :: bitsOf n x

def value : List Bool → ℕ
  | [] => 0
  | b :: bs => b.toNat * 2 ^ bs.length + value bs

@[simp] theorem length_bitsOf (n x : ℕ) : (bitsOf n x).length = n := by
  induction n with
  | zero => rfl
  | succ n ih => rw [bitsOf, List.length_cons, ih]

theorem value_append (a b : List Bool) : value (a ++ b) = value a * 2 ^ b.length + value b := by
  induction a with
  | nil => simp [value]
  | cons x a ih =>
      rw [List.cons_append, value, value, ih, List.length_append, pow_add]
      ring

theorem value_lt (bs : List Bool) : value bs < 2 ^ bs.length := by
  induction bs with
  | nil => exact Nat.one_pos
  | cons b bs ih =>
      rw [value, List.length_cons, pow_succ]
      cases b
      · simp only [Bool.toNat_false]
        omega
      · simp only [Bool.toNat_true]
        omega

theorem bitsOf_append (m n x : ℕ) : bitsOf (m + n) x = bitsOf m (x / 2 ^ n) ++ bitsOf n x := by
  induction m with
  | zero => rw [Nat.zero_add, bitsOf, List.nil_append]
  | succ m ih =>
      rw [Nat.succ_add, bitsOf, bitsOf, ih, List.cons_append, Nat.testBit_div_two_pow]

theorem bitsOf_congr {n x y : ℕ} (h : ∀ i < n, x.testBit i = y.testBit i) : bitsOf n x = bitsOf n y := by
  induction n with
  | zero => rfl
  | succ n ih => rw [bitsOf, bitsOf, h n n.lt_succ_self, ih fun i hi => h i (Nat.lt_succ_of_lt hi)]

theorem bitsOf_mod {m n : ℕ} (h : n ≤ m) (x : ℕ) : bitsOf n (x % 2 ^ m) = bitsOf n x := by
  refine bitsOf_congr fun i hi => ?_
  rw [Nat.testBit_mod_two_pow, decide_eq_true (hi.trans_le h), Bool.true_and]

theorem value_bitsOf (n x : ℕ) : value (bitsOf n x) = x % 2 ^ n := by
  induction n with
  | zero => rw [pow_zero, Nat.mod_one]; rfl
  | succ n ih => rw [bitsOf, value, ih, length_bitsOf, Nat.toNat_testBit, Nat.mod_pow_succ, Nat.add_comm, Nat.mul_comm]

theorem bitsOf_value (bs : List Bool) : bitsOf bs.length (value bs) = bs := by
  induction bs with
  | nil => rfl
  | cons b bs ih =>
      have hlt := value_lt bs
      have hbit : (value (b :: bs)).testBit bs.length = b := by
        rw [value, Nat.mul_comm, Nat.testBit_two_pow_mul_add _ hlt, if_neg (lt_irrefl _), Nat.sub_self]
        cases b <;> rfl
      have hlow : value (b :: bs) % 2 ^ bs.length = value bs := by
        rw [value, Nat.mul_comm, Nat.mul_add_mod, Nat.mod_eq_of_lt hlt]
      rw [List.length_cons, bitsOf, hbit, ← bitsOf_mod (le_refl _), hlow, ih]

theorem value_replicate_true (n : ℕ) : value (List.replicate n true) = 2 ^ n - 1 := by
  induction n with
  | zero => rfl
  | succ n ih =>
      have hpos := Nat.two_pow_pos n
      rw [List.replicate_succ, value, List.length_replicate, ih, pow_succ, Bool.toNat_true]
      omega

/-- A number that is put below the bits of another one. -/
theorem or_below {a b n : ℕ} (hb : b < 2 ^ n) : a * 2 ^ n ||| b = a * 2 ^ n + b := by
  rw [Nat.mul_comm]
  exact (Nat.two_pow_add_eq_or_of_lt hb a).symm

/-! ### Bytes -/

def byteBits (c : UInt8) : List Bool := bitsOf 8 c.toNat

def bytesBits (l : List UInt8) : List Bool := l.flatMap byteBits

theorem bytesBits_append (a b : List UInt8) : bytesBits (a ++ b) = bytesBits a ++ bytesBits b := List.flatMap_append

theorem length_bytesBits (l : List UInt8) : (bytesBits l).length = 8 * l.length := by
  induction l with
  | nil => rfl
  | cons c l ih =>
      rw [bytesBits, List.flatMap_cons, List.length_append, byteBits, length_bitsOf, ← bytesBits, ih, List.length_cons]
      ring

/-- The two halves of a byte. -/
theorem byteBits_halves (c : UInt8) : byteBits c = bitsOf 4 (c.toNat >>> 4) ++ bitsOf 4 (c.toNat % 16) := by
  rw [byteBits, bitsOf_append 4 4, Nat.shiftRight_eq_div_pow, ← bitsOf_mod (le_refl 4) c.toNat]
  rfl

/-- The last `k` bytes of a number, the highest one first. -/
def putBytes : ℕ → ℕ → List UInt8
  | 0, _ => []
  | k + 1, x => UInt8.ofNat (x >>> (8 * k)) :: putBytes k x

theorem length_putBytes (k x : ℕ) : (putBytes k x).length = k := by
  induction k with
  | zero => rfl
  | succ k ih => rw [putBytes, List.length_cons, ih]

theorem bytesBits_putBytes (k x : ℕ) : bytesBits (putBytes k x) = bitsOf (8 * k) x := by
  induction k with
  | zero => rfl
  | succ k ih =>
      have hbyte : byteBits (UInt8.ofNat (x >>> (8 * k))) = bitsOf 8 (x / 2 ^ (8 * k)) := by
        rw [byteBits, UInt8.toNat_ofNat', Nat.shiftRight_eq_div_pow, bitsOf_mod (le_refl 8)]
      rw [putBytes, bytesBits, List.flatMap_cons, ← bytesBits, ih, hbyte, Nat.mul_succ, Nat.add_comm, bitsOf_append]

end NginxDtls.BitString
