import Mathlib.Tactic

/-! Cyclic redundancy checks as shift registers, and why a table of whole bytes may stand for eight single
shifts: one shift is linear over exclusive or, and a register whose low bits are zero is only moved. -/

namespace NginxDtls.Crc

variable {w : Nat}

/-- One shift of the register; a bit that leaves it feeds the polynomial back. -/
def crcBit (poly x : BitVec w) : BitVec w := (x >>> 1) ^^^ (if x.getLsbD 0 then poly else 0)

/-- A byte is shifted in. -/
def crcByte (poly x : BitVec w) (byte : BitVec 8) : BitVec w := (crcBit poly)^[8] (x ^^^ byte.setWidth w)

/-- CRC-32 with the reflected polynomial, the register of ones and the complement at the end. -/
def crc32 (data : List UInt8) : UInt32 :=
  ⟨data.foldl (fun x byte => crcByte 0xEDB88320#32 x byte.toBitVec) 0xFFFFFFFF#32 ^^^ 0xFFFFFFFF#32⟩

theorem crcBit_xor (poly x y : BitVec w) : crcBit poly (x ^^^ y) = crcBit poly x ^^^ crcBit poly y := by
  apply BitVec.eq_of_getLsbD_eq
  intro i _
  simp only [crcBit, BitVec.getLsbD_xor, BitVec.getLsbD_ushiftRight]
  cases x.getLsbD 0 <;> cases y.getLsbD 0 <;> cases poly.getLsbD i <;> cases x.getLsbD (1 + i) <;>
    cases y.getLsbD (1 + i) <;> simp_all

theorem iterate_crcBit_xor (poly x y : BitVec w) (k : Nat) :
    (crcBit poly)^[k] (x ^^^ y) = (crcBit poly)^[k] x ^^^ (crcBit poly)^[k] y := by
  induction k generalizing x y with
  | zero => rfl
  | succ k ih =>
      rw [Function.iterate_succ_apply, crcBit_xor, ih]
      rfl

/-- A register whose low bits are zero is moved. -/
theorem iterate_crcBit_low (poly x : BitVec w) (k : Nat) (hlow : ∀ i, i < k → x.getLsbD i = false) :
    (crcBit poly)^[k] x = x >>> k := by
  induction k with
  | zero =>
      symm
      exact BitVec.ushiftRight_zero x
  | succ k ih =>
      rw [Function.iterate_succ_apply', ih fun i hi => hlow i (Nat.lt_succ_of_lt hi), crcBit]
      have hbit : (x >>> k).getLsbD 0 = false := by
        rw [BitVec.getLsbD_ushiftRight]
        exact hlow k (Nat.lt_succ_self k)
      rw [hbit, BitVec.shiftRight_add]
      simp

/-- Only the low bits of the register need the table. -/
theorem iterate_crcBit_split (poly x : BitVec w) (k : Nat) :
    (crcBit poly)^[k] x = (crcBit poly)^[k] ((x.setWidth k).setWidth w) ^^^ (x >>> k) := by
  have hbit : ∀ i, (x ^^^ (x.setWidth k).setWidth w).getLsbD i = (decide (k ≤ i) && x.getLsbD i) := by
    intro i
    simp only [BitVec.getLsbD_xor, BitVec.getLsbD_setWidth]
    by_cases hi : i < w
    · by_cases hk : i < k
      · simp [hi, hk, Nat.not_le.mpr hk]
      · simp [hk, Nat.not_lt.mp hk]
    · simp [BitVec.getLsbD_of_ge x i (Nat.not_lt.mp hi)]
  have hhigh : (x ^^^ (x.setWidth k).setWidth w) >>> k = x >>> k := by
    apply BitVec.eq_of_getLsbD_eq
    intro i _
    rw [BitVec.getLsbD_ushiftRight, BitVec.getLsbD_ushiftRight, hbit]
    simp
  have hmove : (crcBit poly)^[k] (x ^^^ (x.setWidth k).setWidth w) =
      (x ^^^ (x.setWidth k).setWidth w) >>> k := by
    apply iterate_crcBit_low
    intro i hi
    rw [hbit]
    simp [Nat.not_le.mpr hi]
  have hsplit : x = (x.setWidth k).setWidth w ^^^ (x ^^^ (x.setWidth k).setWidth w) := by
    rw [BitVec.xor_comm x, ← BitVec.xor_assoc, BitVec.xor_self, BitVec.zero_xor]
  calc (crcBit poly)^[k] x
      = (crcBit poly)^[k] ((x.setWidth k).setWidth w ^^^ (x ^^^ (x.setWidth k).setWidth w)) := by rw [← hsplit]
    _ = (crcBit poly)^[k] ((x.setWidth k).setWidth w) ^^^
          (crcBit poly)^[k] (x ^^^ (x.setWidth k).setWidth w) := iterate_crcBit_xor _ _ _ _
    _ = (crcBit poly)^[k] ((x.setWidth k).setWidth w) ^^^ (x >>> k) := by
        rw [hmove, hhigh]

end NginxDtls.Crc
